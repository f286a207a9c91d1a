import TourSearch.Numeric.Numeral

/-!
Arguments of the command. Options begin with two hyphens; the value of an option is the next
argument, or follows an equals sign in the same one. A name may be cut short as long as only one
option begins with what is left. The one argument without an option is the number of cities.
-/

namespace TourSearch.Command

open Numeric

structure Options where
  cities : Int
  seed : Int
  points : Option String
  maxNodes : Int
  maxTime : Float
  nodeSelection : String
  cutMode : String
  maxCuts : Int
  minCut : String
  debug : Bool

def Options.standard : Options where
  cities := 15
  seed := 0
  points := none
  maxNodes := 0
  maxTime := 300.0
  nodeSelection := "best_first"
  cutMode := "most_violated"
  maxCuts := 10
  minCut := "push_relabel"
  debug := false

/-- What an option does: it shows the help, it is a switch, or it takes a value. -/
inductive OptionKind where
  | help
  | switch (set : Options → Options)
  | value (set : String → Options → Option Options)

def chosen (choices : List String) (text : String) : Option String :=
  if text ∈ choices then some text else none

def optionTable : List (String × OptionKind) :=
  [("-h", .help), ("--help", .help),
    ("--seed", .value fun text o => (integer? text).map fun n => { o with seed := n }),
    ("--points", .value fun text o => some { o with points := some text }),
    ("--max-nodes", .value fun text o => (integer? text).map fun n => { o with maxNodes := n }),
    ("--max-time", .value fun text o => (decimal? text).map fun x => { o with maxTime := x }),
    ("--node-selection", .value fun text o =>
      (chosen ["best_first", "depth_first", "breadth_first"] text).map fun s =>
        { o with nodeSelection := s }),
    ("--cut-mode", .value fun text o =>
      (chosen ["single", "any", "most_violated"] text).map fun s => { o with cutMode := s }),
    ("--max-cuts", .value fun text o => (integer? text).map fun n => { o with maxCuts := n }),
    ("--min-cut", .value fun text o => some { o with minCut := text }),
    ("--debug", .switch fun o => { o with debug := true })]

/-- An argument on its own: an option with what follows its equals sign, an option that does not
exist, the mark after which there are no more options, or something else. -/
inductive Word where
  | option (kind : OptionKind) (attached : Option String)
  | unknown
  | separator
  | plain (text : String)

def splitEquals (text : String) : String × Option String :=
  let cs := text.toList
  match cs.dropWhile (· != '=') with
  | [] => (text, none)
  | _ :: rest => (String.ofList (cs.takeWhile (· != '=')), some (String.ofList rest))

def beginsWith (whole start : String) : Bool := start.toList.isPrefixOf whole.toList

/-- Whether an argument is a negative number, which is no option. -/
def isNegativeNumber (text : String) : Bool :=
  match text.toList with
  | '-' :: rest =>
      let isDigit (c : Char) : Bool := (Text.digit? c).isSome
      let behind := (rest.dropWhile isDigit)
      match behind with
      | [] => !rest.isEmpty
      | '.' :: places => !places.isEmpty && places.all isDigit
      | _ => false
  | _ => false

def abbreviated (text : String) : List (OptionKind × Option String) :=
  let (name, attached) := splitEquals text
  (optionTable.filter fun entry => beginsWith entry.1 name).map fun entry => (entry.2, attached)

/-- The option that the letter behind a single hyphen names. More letters may follow: the same one
again changes nothing, and another one would be an option of its own that does not exist, but the
help is given before it is looked at. An equals sign or a hyphen attaches a value. -/
def oneLetter (text : String) : List (OptionKind × Option String) :=
  match text.toList with
  | hyphen :: letter :: rest =>
      let behind := rest.dropWhile (· == letter)
      let attached :=
        match behind with
        | c :: _ => if c == '=' || c == '-' then some (String.ofList behind) else none
        | [] => none
      (optionTable.filter fun entry => entry.1 == String.ofList [hyphen, letter]).map fun entry =>
        (entry.2, attached)
  | _ => []

/-- Reads one argument; none if it could be one of several options. -/
def readWord (text : String) : Option Word :=
  if text == "--" then some .separator
  else if !beginsWith text "-" || text == "-" then some (.plain text)
  else
    match optionTable.lookup text with
    | some kind => some (.option kind none)
    | none =>
        let (name, attached) := splitEquals text
        match attached.bind fun value => (optionTable.lookup name).map fun kind =>
          (kind, value) with
        | some (kind, value) => some (.option kind (some value))
        | none =>
            match if beginsWith text "--" then abbreviated text else oneLetter text with
            | [(kind, attached)] => some (.option kind attached)
            | _ :: _ :: _ => none
            | [] =>
                if isNegativeNumber text || text.toList.contains ' ' then some (.plain text)
                else some .unknown

/-- Reads all arguments. Behind the mark there are only plain ones. -/
def readWords : List String → Option (List Word)
  | [] => some []
  | text :: rest => do
      match ← readWord text with
      | .separator => return .separator :: rest.map Word.plain
      | word => return word :: (← readWords rest)

inductive Parsed where
  | options (o : Options)
  | help
  | unusable

/-- An argument too many makes the others unusable, except that help is still given. -/
def Parsed.spoiled : Parsed → Parsed
  | .help => .help
  | _ => .unusable

/-- Whether the number of cities is still to come, was the argument before, or came earlier. -/
inductive CityPlace where
  | awaited
  | justGiven
  | given
  deriving DecidableEq, Repr

structure Taken where
  options : Options
  place : CityPlace
  pending : Option (String → Options → Option Options)

namespace Taken

def past (t : Taken) : Taken :=
  { t with place := if t.place = .awaited then .awaited else .given }

end Taken

/-- Takes the arguments in turn. An option must get its value before the next option comes. The mark
that ends the options belongs to the number of cities, before it or right behind it. -/
def takeWords (t : Taken) : List Word → Parsed
  | [] => if t.pending.isSome then .unusable else .options t.options
  | .separator :: rest =>
      if t.pending.isSome then .unusable
      else if t.place = .given then (takeWords t rest).spoiled
      else takeWords t.past rest
  | .plain text :: rest =>
      match t.pending with
      | some set =>
          match set text t.options with
          | some options => takeWords { t with options, pending := none } rest
          | none => .unusable
      | none =>
          if t.place = .awaited then
            match integer? text with
            | some n => takeWords { t with options.cities := n, place := .justGiven } rest
            | none => .unusable
          else (takeWords t.past rest).spoiled
  | .unknown :: rest => if t.pending.isSome then .unusable else (takeWords t.past rest).spoiled
  | .option kind attached :: rest =>
      if t.pending.isSome then .unusable
      else
        match kind, attached with
        | .help, none => .help
        | .switch set, none => takeWords { t.past with options := set t.options } rest
        | .value set, none => takeWords { t.past with pending := some set } rest
        | .value set, some text =>
            match set text t.options with
            | some options => takeWords { t.past with options } rest
            | none => .unusable
        | _, some _ => .unusable

def parse (arguments : List String) : Parsed :=
  match readWords arguments with
  | none => .unusable
  | some words => takeWords ⟨Options.standard, .awaited, none⟩ words

end TourSearch.Command
