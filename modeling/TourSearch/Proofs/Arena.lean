import TourSearch.Proofs.Lineage
import Mathlib

/-!
The arena under edits. A tree starts with its root and is then edited: nodes are created, closed,
pruned, given bounds, made the incumbent, and discarded. The arena stays closed under parents,
because only a node without children can leave it, and the children of a node stay the nodes that
name it as their parent (`Tree.Rooted`). An edit either leaves the arena alone (`Tree.SameArena`),
or enters one child, or removes one leaf; the invariant is proved for each of the three.
-/

namespace TourSearch

variable {α μ : Type}

/-- What a node is given when it is created and keeps: where it comes from, its depth and the ids
above it. -/
def Node.place (n : Node α μ) :
    (Int × Int × List (Decision μ) × List (Decision μ)) × Int × List Int :=
  (n.origin, n.depth, n.rootPath)

namespace Node

/-- What a parent passes to a node: the node is one deeper, its path goes on from the path of the
parent, and it has one decision of its own. -/
structure Begets (p n : Node α μ) : Prop where
  parent_eq : n.parent = p.id
  depth_eq : n.depth = p.depth + 1
  rootPath_eq : n.rootPath = p.rootPath ++ [p.id]
  decisions_eq : ∃ d, n.fresh = [d] ∧ n.decisions = p.decisions ++ [d]

theorem id_of_place {n n' : Node α μ} (h : n'.place = n.place) : n'.id = n.id :=
  congrArg (fun p => p.1.1) h

theorem parent_of_place {n n' : Node α μ} (h : n'.place = n.place) : n'.parent = n.parent :=
  congrArg (fun p => p.1.2.1) h

theorem Begets.of_place {p p' n n' : Node α μ} (hb : Begets p n) (hp : p'.place = p.place)
    (hn : n'.place = n.place) : Begets p' n' := by
  simp only [place, origin, Prod.mk.injEq] at hp hn
  obtain ⟨⟨hid, -, hinherited, hfresh⟩, hdepth, hpath⟩ := hp
  obtain ⟨⟨-, hparent', hinherited', hfresh'⟩, hdepth', hpath'⟩ := hn
  refine ⟨?_, ?_, ?_, ?_⟩
  · rw [hparent', hb.parent_eq, hid]
  · rw [hdepth', hb.depth_eq, hdepth]
  · rw [hpath', hb.rootPath_eq, hpath, hid]
  · obtain ⟨d, hd, hdecisions⟩ := hb.decisions_eq
    refine ⟨d, hfresh'.trans hd, ?_⟩
    rw [decisions, decisions] at hdecisions ⊢
    rw [hinherited', hfresh', hdecisions, hinherited, hfresh]

theorem begets_childOf [Scalar α] (p : Node α μ) (d : Decision μ) (id : Int) :
    Begets p { Tree.childOf p d with id } :=
  ⟨rfl, rfl, rfl, d, rfl, rfl⟩

end Node

namespace Tree

/-- An operation on a tree. Of a node the status and the bounds can also be assigned. -/
inductive Edit (α μ : Type) where
  | createChild (parent : Handle) (d : Decision μ)
  | createChildren (parent : Handle) (ds : List (Decision μ))
  | markProcessed (h : Handle) (status : NodeStatus)
  | pruneByBound
  | setIncumbent (h : Handle)
  | setLower (value : α)
  | setUpper (value : α)
  | setStatus (h : Handle) (status : NodeStatus)
  | setBounds (h : Handle) (lower upper value : α)
  | discard (h : Handle)

variable [Scalar α] {t t' t'' : Tree α μ} {h k parent : Nat}

def perform (t : Tree α μ) : Edit α μ → Except Fault Unit × Tree α μ
  | .createChild parent d => (.ok (), (t.createChild parent d).2)
  | .createChildren parent ds => (.ok (), (t.createChildren parent ds).2)
  | .markProcessed h status => (.ok (), t.markProcessed h status)
  | .pruneByBound => (.ok (), t.pruneByBound.2)
  | .setIncumbent h => (.ok (), t.setIncumbent h)
  | .setLower value => (.ok (), t.setLower value)
  | .setUpper value => (.ok (), t.setUpper value)
  | .setStatus h status => (.ok (), t.modify h fun n => { n with status })
  | .setBounds h lower upper value =>
      (.ok (), t.modify h fun n =>
        { n with lowerBound := lower, upperBound := upper, lpValue := value })
  | .discard h => t.discard h

def after (t : Tree α μ) : List (Edit α μ) → Tree α μ
  | [] => t
  | e :: es => after (t.perform e).2 es

/-- A node of the arena: its id leads to it. -/
def InArena (t : Tree α μ) (h : Handle) : Prop := t.lookup? (t.node h).id = some h

instance (t : Tree α μ) (h : Handle) : Decidable (t.InArena h) :=
  inferInstanceAs (Decidable (_ = _))

/-- Children are created below nodes of the arena, and all else is done to nodes that this tree has
created, discarded ones included. -/
def Permits (t : Tree α μ) : Edit α μ → Prop
  | .createChild parent _ | .createChildren parent _ => t.InArena parent
  | .markProcessed h _ | .setIncumbent h | .setStatus h _ | .setBounds h _ _ _ | .discard h =>
      h < t.records.size
  | .pruneByBound | .setLower _ | .setUpper _ => True

def PermitsAll (t : Tree α μ) : List (Edit α μ) → Prop
  | [] => True
  | e :: es => t.Permits e ∧ PermitsAll (t.perform e).2 es

instance (t : Tree α μ) : DecidablePred t.Permits
  | .createChild .. | .createChildren .. => inferInstanceAs (Decidable (t.InArena _))
  | .markProcessed .. | .setIncumbent _ | .setStatus .. | .setBounds .. | .discard _ =>
      inferInstanceAs (Decidable (_ < _))
  | .pruneByBound | .setLower _ | .setUpper _ => inferInstanceAs (Decidable True)

instance decidablePermitsAll (t : Tree α μ) (es : List (Edit α μ)) : Decidable (t.PermitsAll es) :=
  match es with
  | [] => inferInstanceAs (Decidable True)
  | _ :: es => @instDecidableAnd _ _ _ (decidablePermitsAll _ es)

/-! ### The invariant -/

/-- Nodes are numbered by their handles, and an id leads to the node that has it. -/
structure Keyed (t : Tree α μ) : Prop where
  size_eq : t.records.size = t.nextId
  id_eq : ∀ h : Nat, h < t.records.size → (t.node h).id = h
  found : ∀ (id : Int) (h : Nat), t.lookup? id = some h → h < t.records.size ∧ id = h

namespace Keyed

theorem lt_size (ht : t.Keyed) (hin : t.InArena h) : h < t.records.size := (ht.found _ _ hin).1

theorem inArena_iff (ht : t.Keyed) : t.InArena h ↔ t.lookup? (h : Int) = some h := by
  refine ⟨fun hin => ?_, fun hfound => ?_⟩
  · rw [← ht.id_eq h (ht.lt_size hin)]
    exact hin
  · rw [InArena, ht.id_eq h (ht.found _ _ hfound).1]
    exact hfound

theorem id_inj (ht : t.Keyed) (hh : h < t.records.size) (hk : k < t.records.size)
    (heq : (t.node h).id = (t.node k).id) : h = k := by
  rw [ht.id_eq h hh, ht.id_eq k hk] at heq
  exact Int.ofNat.inj heq

end Keyed

def IsChild (t : Tree α μ) (parent id : Int) : Prop :=
  ∃ k, t.InArena k ∧ (t.node k).id = id ∧ (t.node k).parent = parent

/-- Nodes are numbered by their handles. The root is in the arena and has no parent; every other
node of the arena has its parent there, created before it. The children of a node of the arena are
listed in the order of their ids. -/
structure Rooted (t : Tree α μ) : Prop where
  size_eq : t.records.size = t.nextId
  id_eq : ∀ h : Nat, h < t.records.size → (t.node h).id = h
  found : ∀ (id : Int) (h : Nat), t.lookup? id = some h → h < t.records.size ∧ id = h
  root_found : t.lookup? 0 = some root
  root_place : (t.node root).place = (Node.blank : Node α μ).place
  of_child : ∀ h, t.InArena h → h ≠ root → ∃ k : Nat, k < h ∧ t.InArena k ∧
    (t.node k).Begets (t.node h)
  ascending : ∀ h, t.InArena h → (t.node h).children.Pairwise (· < ·)
  mem_children : ∀ h, t.InArena h → ∀ id, id ∈ (t.node h).children ↔ t.IsChild (t.node h).id id

namespace Rooted

theorem keyed (ht : t.Rooted) : t.Keyed := ⟨ht.size_eq, ht.id_eq, ht.found⟩

theorem lt_size (ht : t.Rooted) (hin : t.InArena h) : h < t.records.size := ht.keyed.lt_size hin

theorem root_inArena (ht : t.Rooted) : t.InArena root := ht.keyed.inArena_iff.mpr ht.root_found

theorem root_parent (ht : t.Rooted) : (t.node root).parent = -1 :=
  Node.parent_of_place ht.root_place

theorem root_depth (ht : t.Rooted) : (t.node root).depth = 0 :=
    congrArg (fun p => p.2.1) ht.root_place

theorem root_rootPath (ht : t.Rooted) : (t.node root).rootPath = [] :=
  congrArg (fun p => p.2.2) ht.root_place

theorem id_inj (ht : t.Rooted) (hh : h < t.records.size) (hk : k < t.records.size)
    (heq : (t.node h).id = (t.node k).id) : h = k := ht.keyed.id_inj hh hk heq

theorem parent_lt (ht : t.Rooted) (hin : t.InArena h) : (t.node h).parent < h := by
  by_cases hroot : h = root
  · rw [hroot, ht.root_parent]
    exact Int.negSucc_lt_zero 0
  · obtain ⟨k, hk, hkin, hbegets⟩ := ht.of_child h hin hroot
    rw [hbegets.parent_eq, ht.id_eq k (ht.lt_size hkin)]
    exact Int.ofNat_lt.mpr hk

theorem child_lt (ht : t.Rooted) (hin : t.InArena h) {id : Int} (hid : id ∈ (t.node h).children) :
    id < t.records.size := by
  obtain ⟨k, hkin, hk, -⟩ := (ht.mem_children h hin id).mp hid
  rw [← hk, ht.id_eq k (ht.lt_size hkin)]
  exact Int.ofNat_lt.mpr (ht.lt_size hkin)

end Rooted

theorem rooted_initial : (initial : Tree α μ).Rooted := by
  have hsize : (initial : Tree α μ).records.size = 1 := rfl
  have hlookup : ∀ id : Int, (initial : Tree α μ).lookup? id = if 0 = id then some root else none :=
    fun id => Mapping.get?_put Mapping.empty 0 id root
  have hroot : ∀ h, (initial : Tree α μ).InArena h → h = root := by
    intro h hin
    rw [InArena, hlookup, node_initial] at hin
    exact (Option.some.inj hin).symm
  refine ⟨rfl, fun h hh => ?_, fun id h hfound => ?_, rfl, rfl, fun h hin hne => ?_, fun h _ => ?_,
    fun h hin id => ?_⟩
  · rw [hsize, Nat.lt_one_iff] at hh
    rw [hh]
    rfl
  · rw [hlookup] at hfound
    split at hfound
    · rename_i hid
      obtain rfl := Option.some.inj hfound
      exact ⟨Nat.one_pos, hid.symm⟩
    · cases hfound
  · exact absurd (hroot h hin) hne
  · rw [node_initial]
    exact List.Pairwise.nil
  · rw [node_initial]
    refine ⟨fun hmem => (List.not_mem_nil hmem).elim, ?_⟩
    rintro ⟨k, -, -, hparent⟩
    rw [node_initial] at hparent
    cases hparent

/-! ### Edits that leave the arena alone -/

/-- A later state with the same arena, in which every node keeps its place and its children. -/
structure SameArena (t t' : Tree α μ) : Prop where
  size_eq : t'.records.size = t.records.size
  nextId_eq : t'.nextId = t.nextId
  arena_eq : t'.arena = t.arena
  node_eq : ∀ k, (t'.node k).place = (t.node k).place ∧ (t'.node k).children = (t.node k).children

theorem SameArena.refl (t : Tree α μ) : SameArena t t := ⟨rfl, rfl, rfl, fun _ => ⟨rfl, rfl⟩⟩

theorem SameArena.trans (h₁ : SameArena t t') (h₂ : SameArena t' t'') : SameArena t t'' :=
  ⟨h₂.size_eq.trans h₁.size_eq, h₂.nextId_eq.trans h₁.nextId_eq, h₂.arena_eq.trans h₁.arena_eq,
    fun k => ⟨(h₂.node_eq k).1.trans (h₁.node_eq k).1, (h₂.node_eq k).2.trans (h₁.node_eq k).2⟩⟩

theorem sameArena_modify (t : Tree α μ) (h : Handle) {f : Node α μ → Node α μ}
    (hf : ∀ n, (f n).place = n.place ∧ (f n).children = n.children) :
    SameArena t (t.modify h f) := by
  refine ⟨t.size_modify h f, rfl, rfl, fun k => ?_⟩
  rw [node_modify]
  split
  · rename_i hk
    rw [hk.1]
    exact hf (t.node h)
  · exact ⟨rfl, rfl⟩

theorem sameArena_markProcessed (t : Tree α μ) (h : Handle) (status : NodeStatus) :
    SameArena t (t.markProcessed h status) := by
  have hmodify := t.sameArena_modify h (f := fun n => { n with status }) fun _ => ⟨rfl, rfl⟩
  exact ⟨hmodify.size_eq, hmodify.nextId_eq, hmodify.arena_eq, hmodify.node_eq⟩

theorem sameArena_pruneOne (t : Tree α μ) (h : Handle) : SameArena t (t.pruneOne h).2 := by
  have hmodify := t.sameArena_modify h (f := fun n => { n with status := .prunedBound })
    fun _ => ⟨rfl, rfl⟩
  rw [pruneOne]
  split
  · exact ⟨hmodify.size_eq, hmodify.nextId_eq, hmodify.arena_eq, hmodify.node_eq⟩
  · exact SameArena.refl t

theorem sameArena_pruneEach (t : Tree α μ) (hs : List Handle) : SameArena t (t.pruneEach hs).2 := by
  induction hs generalizing t with
  | nil => exact SameArena.refl t
  | cons h hs ih => exact (t.sameArena_pruneOne h).trans (ih _)

theorem SameArena.id_eq (hr : SameArena t t') (k : Handle) : (t'.node k).id = (t.node k).id :=
  Node.id_of_place (hr.node_eq k).1

theorem SameArena.parent_eq (hr : SameArena t t') (k : Handle) :
    (t'.node k).parent = (t.node k).parent :=
  Node.parent_of_place (hr.node_eq k).1

theorem SameArena.lookup?_eq (hr : SameArena t t') (id : Int) : t'.lookup? id = t.lookup? id := by
  rw [lookup?, lookup?, hr.arena_eq]

theorem SameArena.inArena_iff (hr : SameArena t t') : t'.InArena k ↔ t.InArena k := by
  rw [InArena, InArena, hr.lookup?_eq, hr.id_eq]

theorem SameArena.keyed (hr : SameArena t t') (ht : t.Keyed) : t'.Keyed := by
  refine ⟨?_, fun h hh => ?_, fun id h hfound => ?_⟩
  · rw [hr.size_eq, hr.nextId_eq, ht.size_eq]
  · rw [hr.size_eq] at hh
    rw [hr.id_eq, ht.id_eq h hh]
  · rw [hr.lookup?_eq] at hfound
    rw [hr.size_eq]
    exact ht.found id h hfound

theorem SameArena.rooted (hr : SameArena t t') (ht : t.Rooted) : t'.Rooted := by
  have hkeyed := hr.keyed ht.keyed
  refine ⟨hkeyed.size_eq, hkeyed.id_eq, hkeyed.found, ?_, ?_, fun h hin hne => ?_, fun h hin => ?_,
    fun h hin id => ?_⟩
  · rw [hr.lookup?_eq, ht.root_found]
  · rw [(hr.node_eq root).1, ht.root_place]
  · obtain ⟨k, hk, hkin, hbegets⟩ := ht.of_child h (hr.inArena_iff.mp hin) hne
    exact ⟨k, hk, hr.inArena_iff.mpr hkin, hbegets.of_place (hr.node_eq k).1 (hr.node_eq h).1⟩
  · rw [(hr.node_eq h).2]
    exact ht.ascending h (hr.inArena_iff.mp hin)
  · rw [(hr.node_eq h).2, ht.mem_children h (hr.inArena_iff.mp hin)]
    simp only [IsChild, hr.inArena_iff, hr.id_eq, hr.parent_eq]

/-! ### A new child -/

theorem node_createChild (hlt : parent < t.records.size) (d : Decision μ) (k : Nat) :
    (t.createChild parent d).2.node k =
      if k = t.records.size then { childOf (t.node parent) d with id := t.nextId }
      else if k = parent then
        { t.node parent with children := (t.node parent).children ++ [(t.nextId : Int)] }
      else t.node k := by
  have hsize : (t.register (childOf (t.node parent) d)).2.records.size = t.records.size + 1 :=
    Array.size_push _
  have hnode : (t.createChild parent d).2.node k =
      ((t.register (childOf (t.node parent) d)).2.modify parent
        fun n => { n with children := n.children ++ [(t.nextId : Int)] }).node k := rfl
  rw [hnode, node_modify, hsize, node_register, node_register]
  by_cases hnew : k = t.records.size
  · have hne : k ≠ parent := by omega
    rw [if_neg fun hand => hne hand.1, if_pos hnew, if_pos hnew]
  · rw [if_neg hnew, if_neg hnew, if_neg (Nat.ne_of_lt hlt)]
    by_cases hparent : k = parent
    · rw [if_pos ⟨hparent, Nat.lt_succ_of_lt hlt⟩, if_pos hparent]
    · rw [if_neg fun hand => hparent hand.1, if_neg hparent]

theorem node_createChild_new (hlt : parent < t.records.size) (d : Decision μ) :
    (t.createChild parent d).2.node t.records.size =
      { childOf (t.node parent) d with id := t.nextId } := by
  rw [node_createChild hlt, if_pos rfl]

theorem lookup?_createChild (t : Tree α μ) (parent : Handle) (d : Decision μ) (id : Int) :
    (t.createChild parent d).2.lookup? id =
      if (t.nextId : Int) = id then some t.records.size else t.lookup? id :=
  Mapping.get?_put t.arena t.nextId id t.records.size

theorem place_createChild (hlt : parent < t.records.size) (d : Decision μ)
    (hk : k ≠ t.records.size) : ((t.createChild parent d).2.node k).place = (t.node k).place := by
  rw [node_createChild hlt, if_neg hk]
  split
  · rename_i hparent
    rw [hparent]
    rfl
  · rfl

theorem id_createChild (hlt : parent < t.records.size) (d : Decision μ) (hk : k ≠ t.records.size) :
    ((t.createChild parent d).2.node k).id = (t.node k).id :=
  Node.id_of_place (place_createChild hlt d hk)

theorem size_createChild (t : Tree α μ) (parent : Handle) (d : Decision μ) :
    (t.createChild parent d).2.records.size = t.records.size + 1 := by
  rw [createChild, size_modify]
  exact Array.size_push _

/-- The new id goes to the end of the parent's children and nowhere else. -/
theorem children_createChild (hlt : parent < t.records.size) (d : Decision μ)
    (hk : k ≠ t.records.size) : ((t.createChild parent d).2.node k).children =
      (t.node k).children ++ if k = parent then [(t.nextId : Int)] else [] := by
  rw [node_createChild hlt, if_neg hk]
  split
  · rename_i hparent
    rw [hparent]
  · exact (List.append_nil _).symm

/-- The new node is the only one that enters the arena. -/
theorem Keyed.inArena_createChild (ht : t.Keyed) (hlt : parent < t.records.size)
    (d : Decision μ) : (t.createChild parent d).2.InArena k ↔ k = t.records.size ∨ t.InArena k := by
  by_cases hk : k = t.records.size
  · refine iff_of_true ?_ (Or.inl hk)
    rw [InArena, node_createChild hlt, if_pos hk, lookup?_createChild, if_pos rfl, hk]
  · rw [InArena, id_createChild hlt d hk, lookup?_createChild, or_iff_right hk, InArena]
    split
    · rename_i hid
      refine iff_of_false (fun heq => hk (Option.some.inj heq).symm) fun hfound => ?_
      have hknown := ht.found _ _ hfound
      rw [← hid, ← ht.size_eq] at hknown
      exact hk (Int.ofNat.inj hknown.2).symm
    · exact Iff.rfl

theorem Keyed.createChild (ht : t.Keyed) (hlt : parent < t.records.size) (d : Decision μ) :
    (t.createChild parent d).2.Keyed := by
  refine ⟨?_, fun h hh => ?_, fun id h hfound => ?_⟩
  · rw [size_createChild, ht.size_eq]
    rfl
  · rw [size_createChild] at hh
    by_cases hk : h = t.records.size
    · rw [hk, node_createChild_new hlt, ht.size_eq]
    · rw [id_createChild hlt d hk, ht.id_eq h (by omega)]
  · rw [lookup?_createChild] at hfound
    rw [size_createChild]
    split at hfound
    · rename_i hid
      obtain rfl := Option.some.inj hfound
      rw [ht.size_eq]
      exact ⟨Nat.lt_succ_self _, hid.symm⟩
    · obtain ⟨hknown, hid⟩ := ht.found id h hfound
      exact ⟨Nat.lt_succ_of_lt hknown, hid⟩

theorem Keyed.nextId_notMem_keys (ht : t.Keyed) : (t.nextId : Int) ∉ t.arena.keys := by
  refine Mapping.get?_eq_none_iff.mp (Option.eq_none_iff_forall_ne_some.mpr fun k hfound => ?_)
  have hknown := ht.found _ _ hfound
  have := ht.size_eq
  omega

theorem Keyed.parent_createChild_new (ht : t.Keyed) (hlt : parent < t.records.size)
    (d : Decision μ) : ((t.createChild parent d).2.node t.records.size).parent = parent := by
  have hid : (t.node parent).id = parent := ht.id_eq parent hlt
  rw [node_createChild_new hlt, ← hid]
  rfl

theorem Keyed.kept_createChild (ht : t.Keyed) (hlt : parent < t.records.size) (d : Decision μ)
    (hk : t.InArena k) : ((t.createChild parent d).2.node k).id = (t.node k).id ∧
      ((t.createChild parent d).2.node k).parent = (t.node k).parent := by
  have hplace := place_createChild hlt d (Nat.ne_of_lt (ht.lt_size hk))
  exact ⟨Node.id_of_place hplace, Node.parent_of_place hplace⟩

theorem Rooted.inArena_createChild (ht : t.Rooted) (hin : t.InArena parent) (d : Decision μ) :
    (t.createChild parent d).2.InArena k ↔ k = t.records.size ∨ t.InArena k :=
  ht.keyed.inArena_createChild (ht.lt_size hin) d

theorem Rooted.isChild_createChild (ht : t.Rooted) (hin : t.InArena parent) (d : Decision μ)
    (p id : Int) : (t.createChild parent d).2.IsChild p id ↔
      t.IsChild p id ∨ (id = t.nextId ∧ p = (t.node parent).id) := by
  have hlt := ht.lt_size hin
  have hkept : ∀ {k}, t.InArena k → ((t.createChild parent d).2.node k).id = (t.node k).id ∧
      ((t.createChild parent d).2.node k).parent = (t.node k).parent :=
    ht.keyed.kept_createChild hlt d
  constructor
  · rintro ⟨k, hk, hid, hkparent⟩
    rcases (ht.inArena_createChild hin d).mp hk with rfl | hk
    · rw [node_createChild_new hlt] at hid hkparent
      exact Or.inr ⟨hid.symm, hkparent.symm⟩
    · rw [(hkept hk).1] at hid
      rw [(hkept hk).2] at hkparent
      exact Or.inl ⟨k, hk, hid, hkparent⟩
  · rintro (⟨k, hk, hid, hkparent⟩ | ⟨rfl, rfl⟩)
    · exact ⟨k, (ht.inArena_createChild hin d).mpr (Or.inr hk), (hkept hk).1.trans hid,
        (hkept hk).2.trans hkparent⟩
    · refine ⟨t.records.size, (ht.inArena_createChild hin d).mpr (Or.inl rfl), ?_, ?_⟩
      · rw [node_createChild_new hlt]
      · rw [node_createChild_new hlt]
        rfl

theorem Rooted.ascending_createChild (ht : t.Rooted) (hin : t.InArena parent) (d : Decision μ)
    (hh : (t.createChild parent d).2.InArena h) :
    ((t.createChild parent d).2.node h).children.Pairwise (· < ·) := by
  have hlt := ht.lt_size hin
  rcases (ht.inArena_createChild hin d).mp hh with rfl | hh
  · rw [node_createChild_new hlt]
    exact List.Pairwise.nil
  · rw [children_createChild hlt d (Nat.ne_of_lt (ht.lt_size hh)), List.pairwise_append]
    refine ⟨ht.ascending h hh, ?_, fun id hid id' hid' => ?_⟩
    · split
      · exact List.pairwise_singleton _ _
      · exact List.Pairwise.nil
    · split at hid'
      · rw [List.mem_singleton.mp hid', ← ht.size_eq]
        exact ht.child_lt hh hid
      · exact absurd hid' List.not_mem_nil

theorem Rooted.mem_children_createChild (ht : t.Rooted) (hin : t.InArena parent) (d : Decision μ)
    (hh : (t.createChild parent d).2.InArena h) (id : Int) :
    id ∈ ((t.createChild parent d).2.node h).children ↔
      (t.createChild parent d).2.IsChild ((t.createChild parent d).2.node h).id id := by
  have hlt := ht.lt_size hin
  rw [ht.isChild_createChild hin]
  rcases (ht.inArena_createChild hin d).mp hh with rfl | hh
  · -- No node names the new one as its parent yet.
    have hid : ((t.createChild parent d).2.node t.records.size).id = t.records.size := by
      rw [node_createChild_new hlt, ht.size_eq]
    have hchildren : ((t.createChild parent d).2.node t.records.size).children = [] :=
      congrArg Node.children (node_createChild_new hlt d)
    rw [hchildren, hid]
    refine iff_of_false List.not_mem_nil ?_
    rintro (⟨k, hk, -, hkparent⟩ | ⟨-, hkparent⟩)
    · have hbefore := ht.parent_lt hk
      have hknown := ht.lt_size hk
      omega
    · rw [ht.id_eq parent hlt] at hkparent
      omega
  · have hold := Nat.ne_of_lt (ht.lt_size hh)
    rw [children_createChild hlt d hold, List.mem_append, ht.mem_children h hh,
      id_createChild hlt d hold]
    refine or_congr Iff.rfl ?_
    split
    · rename_i heq
      rw [heq, List.mem_singleton, and_iff_left rfl]
    · rename_i hne
      refine iff_of_false List.not_mem_nil fun hand => ?_
      exact hne (ht.id_inj (ht.lt_size hh) hlt hand.2)

theorem Rooted.createChild (ht : t.Rooted) (hin : t.InArena parent) (d : Decision μ) :
    (t.createChild parent d).2.Rooted := by
  have hlt : parent < t.records.size := ht.lt_size hin
  have hnew := node_createChild_new hlt d
  have hentered : ∀ {k}, (t.createChild parent d).2.InArena k ↔ k = t.records.size ∨ t.InArena k :=
    ht.inArena_createChild hin d
  have hold : ∀ {k}, t.InArena k → k ≠ t.records.size := fun hk => Nat.ne_of_lt (ht.lt_size hk)
  have hkeyed := ht.keyed.createChild hlt d
  refine ⟨hkeyed.size_eq, hkeyed.id_eq, hkeyed.found, ?_, ?_, fun h hh hne => ?_,
    fun h hh => ht.ascending_createChild hin d hh,
    fun h hh => ht.mem_children_createChild hin d hh⟩
  · rw [lookup?_createChild, if_neg (by have := ht.size_eq; omega), ht.root_found]
  · rw [place_createChild hlt d (hold ht.root_inArena), ht.root_place]
  · rcases hentered.mp hh with rfl | hh
    · refine ⟨parent, hlt, hentered.mpr (Or.inr hin), ?_⟩
      rw [hnew]
      exact (Node.begets_childOf (t.node parent) d t.nextId).of_place
        (place_createChild hlt d (hold hin)) rfl
    · obtain ⟨k, hk, hkin, hbegets⟩ := ht.of_child h hh hne
      exact ⟨k, hk, hentered.mpr (Or.inr hkin), hbegets.of_place
        (place_createChild hlt d (hold hkin)) (place_createChild hlt d (hold hh))⟩

/-! ### Discarding -/

def without (t : Tree α μ) (h parent : Handle) : Tree α μ :=
  { t with arena := t.arena.erase (t.node h).id }.modify parent
    fun q => { q with children := q.children.erase (t.node h).id }

theorem lookup?_without (t : Tree α μ) (h parent : Handle) (id : Int) :
    (t.without h parent).lookup? id = if id = (t.node h).id then none else t.lookup? id :=
  Mapping.get?_erase t.arena (t.node h).id id

omit [Scalar α] in
theorem contains_iff {id : Int} : t.contains id = true ↔ ∃ k, t.lookup? id = some k := by
  rw [contains, Mapping.contains_eq_isSome, Option.isSome_iff_exists]
  rfl

theorem Keyed.inArena_of_contains (ht : t.Keyed) (hlt : h < t.records.size)
    (hcontains : t.contains (t.node h).id = true) : t.InArena h := by
  obtain ⟨k, hfound⟩ := contains_iff.mp hcontains
  have hid := (ht.found _ _ hfound).2
  rw [ht.id_eq h hlt] at hid
  rw [InArena, hfound, Int.ofNat.inj hid]

/-- A discard fails and changes nothing, or it removes a node without children. -/
theorem Rooted.discard_cases (ht : t.Rooted) (hlt : h < t.records.size) :
    (∃ fault, t.discard h = (.error fault, t)) ∨
    (t.InArena h ∧ (t.node h).children = [] ∧ ∃ k, k < h ∧ t.InArena k ∧
      (t.node k).Begets (t.node h) ∧ t.discard h = (.ok (), t.without h k)) := by
  rw [discard]
  split
  · exact Or.inl ⟨_, rfl⟩
  · rename_i hleaf
    simp only [Bool.not_eq_true, Bool.or_eq_false_iff, Bool.not_eq_false', List.isEmpty_iff,
      beq_eq_false_iff_ne] at hleaf
    obtain ⟨⟨-, hchildren⟩, hne⟩ := hleaf
    split
    · exact Or.inl ⟨_, rfl⟩
    · rename_i hcontains
      rw [Bool.not_eq_true, Bool.not_eq_false'] at hcontains
      have hin := ht.keyed.inArena_of_contains hlt hcontains
      obtain ⟨k, hk, hkin, hbegets⟩ := ht.of_child h hin hne
      -- The parent is still there when the node has been erased, and lists the node.
      have hfound : ({ t with arena := t.arena.erase (t.node h).id } : Tree α μ).lookup?
          (t.node h).parent = some k := by
        have hid : (t.node k).id ≠ (t.node h).id := fun heq =>
          Nat.ne_of_lt hk (ht.id_inj (ht.lt_size hkin) hlt heq)
        rw [lookup?, Mapping.get?_erase, hbegets.parent_eq, if_neg hid]
        exact hkin
      have hlisted : (t.node h).id ∈ (t.node k).children :=
        (ht.mem_children k hkin _).mpr ⟨h, hin, rfl, hbegets.parent_eq⟩
      refine Or.inr ⟨hin, hchildren, k, hk, hkin, hbegets, ?_⟩
      simp only [hfound]
      exact if_pos hlisted

theorem place_without (t : Tree α μ) (h parent k : Handle) :
    ((t.without h parent).node k).place = (t.node k).place := by
  rw [without, node_modify]
  split
  · rename_i hk
    rw [hk.1]
    rfl
  · rfl

theorem children_without (t : Tree α μ) (hlt : parent < t.records.size) (h k : Handle) :
    ((t.without h parent).node k).children =
      if k = parent then (t.node k).children.erase (t.node h).id else (t.node k).children := by
  rw [without, node_modify]
  by_cases hk : k = parent
  · rw [if_pos ⟨hk, hlt⟩, if_pos hk, hk]
    rfl
  · rw [if_neg fun hand => hk hand.1, if_neg hk]
    rfl

theorem Keyed.inArena_without (ht : t.Keyed) (hin : t.InArena h) :
    (t.without h parent).InArena k ↔ t.InArena k ∧ k ≠ h := by
  have hid : ((t.without h parent).node k).id = (t.node k).id :=
    Node.id_of_place (t.place_without h parent k)
  rw [InArena, lookup?_without, hid]
  split
  · rename_i heq
    refine iff_of_false nofun ?_
    rintro ⟨hkin, hne⟩
    exact hne (ht.id_inj (ht.lt_size hkin) (ht.lt_size hin) heq)
  · rename_i hne
    refine ⟨fun hkin => ⟨hkin, fun heq => hne (heq ▸ rfl)⟩, fun hand => hand.1⟩

theorem Keyed.without (ht : t.Keyed) (h parent : Handle) : (t.without h parent).Keyed := by
  have hsize : (t.without h parent).records.size = t.records.size := size_modify _ _ _
  refine ⟨hsize.trans ht.size_eq, fun j hj => ?_, fun id j hfound => ?_⟩
  · rw [Node.id_of_place (t.place_without h parent j), ht.id_eq j (hsize ▸ hj)]
  · rw [lookup?_without] at hfound
    rw [hsize]
    split at hfound
    · cases hfound
    · exact ht.found id j hfound

theorem Rooted.isChild_without (ht : t.Rooted) (hin : t.InArena h) (p id : Int) :
    (t.without h parent).IsChild p id ↔ t.IsChild p id ∧ id ≠ (t.node h).id := by
  have hkept : ∀ k, ((t.without h parent).node k).id = (t.node k).id ∧
      ((t.without h parent).node k).parent = (t.node k).parent := fun k =>
    ⟨Node.id_of_place (t.place_without h parent k),
      Node.parent_of_place (t.place_without h parent k)⟩
  constructor
  · rintro ⟨k, hk, hid, hkparent⟩
    obtain ⟨hkin, hne⟩ := (ht.keyed.inArena_without hin).mp hk
    rw [(hkept k).1] at hid
    rw [(hkept k).2] at hkparent
    refine ⟨⟨k, hkin, hid, hkparent⟩, fun heq => hne ?_⟩
    exact ht.id_inj (ht.lt_size hkin) (ht.lt_size hin) (hid.trans heq)
  · rintro ⟨⟨k, hkin, hid, hkparent⟩, hne⟩
    refine ⟨k, (ht.keyed.inArena_without hin).mpr ⟨hkin, ?_⟩, (hkept k).1.trans hid,
      (hkept k).2.trans hkparent⟩
    rintro rfl
    exact hne hid.symm

theorem Rooted.without (ht : t.Rooted) (hin : t.InArena h) (hleaf : (t.node h).children = [])
    (hkh : k < h) (hkin : t.InArena k) (hbegets : (t.node k).Begets (t.node h)) :
    (t.without h k).Rooted := by
  have hplace := t.place_without h k
  have hremains : ∀ {j}, (t.without h k).InArena j ↔ t.InArena j ∧ j ≠ h :=
    ht.keyed.inArena_without hin
  have hid : ∀ j, ((t.without h k).node j).id = (t.node j).id := fun j =>
    Node.id_of_place (hplace j)
  have hkeyed := ht.keyed.without h k
  refine ⟨hkeyed.size_eq, hkeyed.id_eq, hkeyed.found, ?_, ?_, fun j hj hne => ?_, fun j hj => ?_,
    fun j hj id => ?_⟩
  · have hne : (0 : Int) ≠ (t.node h).id := by
      rw [ht.id_eq h (ht.lt_size hin)]
      omega
    rw [lookup?_without, if_neg hne, ht.root_found]
  · rw [hplace, ht.root_place]
  · -- The parent of a node that stays has a child, so it is not the one that goes.
    obtain ⟨hjin, hjh⟩ := hremains.mp hj
    obtain ⟨i, hi, hiin, hib⟩ := ht.of_child j hjin hne
    have hih : i ≠ h := by
      rintro rfl
      have hmem := (ht.mem_children i hiin (t.node j).id).mpr ⟨j, hjin, rfl, hib.parent_eq⟩
      rw [hleaf] at hmem
      exact List.not_mem_nil hmem
    exact ⟨i, hi, hremains.mpr ⟨hiin, hih⟩, hib.of_place (hplace i) (hplace j)⟩
  · have hascending := ht.ascending j (hremains.mp hj).1
    rw [children_without t (ht.lt_size hkin)]
    split
    · exact hascending.sublist List.erase_sublist
    · exact hascending
  · obtain ⟨hjin, -⟩ := hremains.mp hj
    rw [children_without t (ht.lt_size hkin), hid, ht.isChild_without hin,
      ← ht.mem_children j hjin]
    split
    · have hnodup : (t.node j).children.Nodup := (ht.ascending j hjin).imp fun hlt => ne_of_lt hlt
      rw [hnodup.mem_erase_iff, and_comm]
    · rename_i hjk
      refine ⟨fun hmem => ⟨hmem, ?_⟩, fun hand => hand.1⟩
      rintro rfl
      obtain ⟨i, hiin, hih, hparent⟩ := (ht.mem_children j hjin _).mp hmem
      obtain rfl := ht.id_inj (ht.lt_size hiin) (ht.lt_size hin) hih
      rw [hbegets.parent_eq] at hparent
      exact hjk (ht.id_inj (ht.lt_size hkin) (ht.lt_size hjin) hparent).symm

/-! ### Sequences of edits -/

theorem Rooted.createEach (ht : t.Rooted) (hin : t.InArena parent) (ds : List (Decision μ)) :
    (t.createEach parent ds).2.Rooted := by
  induction ds generalizing t with
  | nil => exact ht
  | cons d ds ih =>
      exact ih (ht.createChild hin d) ((ht.inArena_createChild hin d).mpr (Or.inr hin))

theorem Rooted.perform (ht : t.Rooted) {e : Edit α μ} (hp : t.Permits e) :
    (t.perform e).2.Rooted := by
  cases e with
  | createChild parent d => exact ht.createChild hp d
  | createChildren parent ds =>
      exact (sameArena_markProcessed _ parent .branched).rooted (ht.createEach hp ds)
  | markProcessed h status => exact (t.sameArena_markProcessed h status).rooted ht
  | pruneByBound => exact (t.sameArena_pruneEach t.arena.values).rooted ht
  | setIncumbent | setLower | setUpper =>
      refine SameArena.rooted ?_ ht
      exact ⟨rfl, rfl, rfl, fun _ => ⟨rfl, rfl⟩⟩
  | setStatus h | setBounds h =>
      refine SameArena.rooted ?_ ht
      exact t.sameArena_modify h fun _ => ⟨rfl, rfl⟩
  | discard h =>
      rcases ht.discard_cases hp with ⟨fault, hfail⟩ | ⟨hin, hleaf, k, hk, hkin, hbegets, hdone⟩
      · rw [Tree.perform, hfail]
        exact ht
      · rw [Tree.perform, hdone]
        exact ht.without hin hleaf hk hkin hbegets

/-- Records are added and never dropped. -/
theorem size_le_perform (ht : t.Rooted) {e : Edit α μ} (hp : t.Permits e) :
    t.records.size ≤ (t.perform e).2.records.size := by
  cases e with
  | createChild parent d => exact (t.size_createChild parent d).symm ▸ Nat.le_succ _
  | createChildren parent ds =>
      exact (branched_createChildren (ht.lt_size hp) ds).size_eq ▸ Nat.le_add_right _ _
  | pruneByBound => exact (t.sameArena_pruneEach t.arena.values).size_eq.ge
  | discard h =>
      rcases ht.discard_cases hp with ⟨fault, hfail⟩ | ⟨-, -, k, -, -, -, hdone⟩
      · rw [Tree.perform, hfail]
      · rw [Tree.perform, hdone]
        exact (size_modify _ _ _).ge
  | markProcessed h status => exact (t.size_markProcessed h status).ge
  | setStatus | setBounds => exact (size_modify _ _ _).ge
  | setIncumbent | setLower | setUpper => exact Nat.le_refl _

theorem Rooted.after (ht : t.Rooted) {es : List (Edit α μ)} (hp : t.PermitsAll es) :
    (t.after es).Rooted := by
  induction es generalizing t with
  | nil => exact ht
  | cons e es ih => exact ih (ht.perform hp.1) hp.2

theorem Rooted.size_le_after (ht : t.Rooted) {es : List (Edit α μ)} (hp : t.PermitsAll es) :
    t.records.size ≤ (t.after es).records.size := by
  induction es generalizing t with
  | nil => exact Nat.le_refl _
  | cons e es ih => exact (size_le_perform ht hp.1).trans (ih (ht.perform hp.1) hp.2)

end Tree

end TourSearch
