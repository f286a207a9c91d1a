import TourSearch.Proofs.Extended
import TourSearch.Proofs.Graph.Reachability
import Mathlib

/-!
The working graph of a problem graph and its weights, in exact arithmetic. The working graph has the
vertices of the problem graph and one link for every two different vertices that an edge joins. When
a refresh succeeds, what crosses a set of vertices is the sum of the values above the precision of
the edges with one end in it (`refresh_crossing`).

Sets of vertices are given here by a test, the side on which a vertex lies.
-/

namespace TourSearch

open Numeric

namespace Link

variable {α : Type}

theorem joins_iff {link : Link α} {u v : Vertex} :
    link.joins u v = true ↔ Graph.SamePair (link.tail, link.head) (u, v) := by
  simp [joins, Graph.SamePair]

theorem joins_comm (link : Link α) (u v : Vertex) : link.joins u v = link.joins v u := by
  unfold joins
  rw [Bool.or_comm]

theorem samePair_of_joins {k l : Link α} {u v : Vertex} (hk : k.joins u v = true)
    (hl : l.joins u v = true) : Graph.SamePair (k.tail, k.head) (l.tail, l.head) := by
  rcases joins_iff.mp hk with h₁ | h₁ <;> rcases joins_iff.mp hl with h₂ | h₂ <;>
    rw [h₁, h₂] <;> simp [Graph.SamePair]

def splits (link : Link α) (side : Vertex → Bool) : Bool := side link.tail != side link.head

theorem splits_of_joins {link : Link α} {u v : Vertex} (h : link.joins u v = true)
    (side : Vertex → Bool) : link.splits side = (side u != side v) := by
  rcases joins_iff.mp h with heq | heq
  · obtain ⟨rfl, rfl⟩ := Prod.mk.inj heq
    rfl
  · obtain ⟨rfl, rfl⟩ := Prod.mk.inj heq
    rw [splits, bne_comm]

/-- Links between different vertices, at most one for every two vertices. -/
structure Simple (links : List (Link α)) : Prop where
  loopless : ∀ link ∈ links, link.tail ≠ link.head
  single : links.Pairwise fun k l => ¬Graph.SamePair (k.tail, k.head) (l.tail, l.head)

def crossing (links : List (Link Extended)) (side : Vertex → Bool) : Rat :=
  (links.map fun link => if link.splits side then link.weight.toRat else 0).sum

theorem crossing_cons (link : Link Extended) (links : List (Link Extended))
    (side : Vertex → Bool) : crossing (link :: links) side =
      (if link.splits side then link.weight.toRat else 0) + crossing links side := by
  rw [crossing, List.map_cons, List.sum_cons, crossing]

def Weighted (links : List (Link Extended)) : Prop :=
  ∀ link ∈ links, ∃ q : Rat, 0 ≤ q ∧ link.weight = .finite q

theorem Weighted.toRat_nonneg {links : List (Link Extended)} (h : Weighted links)
    {link : Link Extended} (hlink : link ∈ links) : 0 ≤ link.weight.toRat := by
  obtain ⟨q, hq, heq⟩ := h link hlink
  rw [heq]
  exact hq

theorem Weighted.crossing_nonneg {links : List (Link Extended)} (h : Weighted links)
    (side : Vertex → Bool) : 0 ≤ crossing links side := by
  apply List.sum_nonneg
  intro x hx
  obtain ⟨link, hlink, rfl⟩ := List.mem_map.mp hx
  split
  · exact h.toRat_nonneg hlink
  · exact Rat.le_refl

def raise (u v : Vertex) (value : Extended) (link : Link Extended) : Link Extended :=
  if link.joins u v then { link with weight := link.weight + value } else link

@[simp] theorem raise_tail (u v : Vertex) (value : Extended) (link : Link Extended) :
    (link.raise u v value).tail = link.tail := by
  unfold raise
  split <;> rfl

@[simp] theorem raise_head (u v : Vertex) (value : Extended) (link : Link Extended) :
    (link.raise u v value).head = link.head := by
  unfold raise
  split <;> rfl

@[simp] theorem raise_splits (u v : Vertex) (value : Extended) (link : Link Extended)
    (side : Vertex → Bool) : (link.raise u v value).splits side = link.splits side := by
  simp [splits]

theorem Weighted.raise {links : List (Link Extended)} (h : Weighted links) (u v : Vertex) {x : Rat}
    (hx : 0 ≤ x) : Weighted (links.map (Link.raise u v (.finite x))) := by
  intro link hlink
  obtain ⟨old, hold, rfl⟩ := List.mem_map.mp hlink
  obtain ⟨q, hq, heq⟩ := h old hold
  unfold Link.raise
  split
  · exact ⟨q + x, add_nonneg hq hx, by simp [heq]⟩
  · exact ⟨q, hq, heq⟩

theorem Simple.raise {links : List (Link Extended)} (h : Simple links) (u v : Vertex)
    (value : Extended) : Simple (links.map (Link.raise u v value)) := by
  refine ⟨fun link hlink => ?_, ?_⟩
  · obtain ⟨old, hold, rfl⟩ := List.mem_map.mp hlink
    simpa using h.loopless old hold
  · rw [List.pairwise_map]
    simpa using h.single

/-- The one link between two vertices carries an added value across. -/
theorem crossing_raise {links : List (Link Extended)} (hsimple : Simple links)
    (hweighted : Weighted links) {u v : Vertex} (hany : links.any (·.joins u v) = true) (x : Rat)
    (side : Vertex → Bool) :
    crossing (links.map (Link.raise u v (.finite x))) side =
      crossing links side + if side u != side v then x else 0 := by
  induction links with
  | nil => simp at hany
  | cons link rest ih =>
      obtain ⟨hfirst, hsingle⟩ := List.pairwise_cons.mp hsimple.single
      have hrest : Simple rest :=
        ⟨fun l hl => hsimple.loopless l (List.mem_cons_of_mem _ hl), hsingle⟩
      have hweightedRest : Weighted rest := fun l hl => hweighted l (List.mem_cons_of_mem _ hl)
      simp only [crossing, List.map_cons, List.sum_cons, raise_splits] at ih ⊢
      by_cases hlink : link.joins u v = true
      · -- No other link joins the two vertices, so the rest stays as it is.
        have hsame : rest.map (Link.raise u v (.finite x)) = rest := by
          conv_rhs => rw [← List.map_id rest]
          apply List.map_congr_left
          intro l hl
          have hnot : l.joins u v ≠ true := fun hjoins =>
            hfirst l hl (samePair_of_joins hlink hjoins)
          simp [Link.raise, hnot]
        obtain ⟨q, -, hq⟩ := hweighted link List.mem_cons_self
        rw [hsame, splits_of_joins hlink side]
        simp only [Link.raise, hlink, if_true, hq, Extended.finite_add_finite,
          Extended.toRat_finite]
        split <;> ring
      · have hanyRest : rest.any (·.joins u v) = true := by
          simpa [hlink] using hany
        rw [ih hrest hweightedRest hanyRest]
        simp only [Link.raise, hlink, Bool.false_eq_true, if_false]
        ring

end Link

namespace EdgeValues

def splits (kind : GraphKind) (side : Vertex → Bool) (e : Edge) : Bool :=
  match kind.endpoints e with
  | .ok (u, v) => side u != side v
  | .error _ => false

/-- The values above the precision of the edges between two sides, added up. -/
def crossing (kind : GraphKind) (values : EdgeValues Extended) (side : Vertex → Bool) : Rat :=
  (values.entries.map fun (e, x) =>
    if precision < x ∧ splits kind side e = true then x.toRat else 0).sum

theorem crossing_cons (kind : GraphKind) (e : Edge) (x : Extended) (rest : List (Edge × Extended))
    (side : Vertex → Bool) :
    crossing kind ⟨(e, x) :: rest⟩ side =
      (if precision < x ∧ splits kind side e = true then x.toRat else 0) +
        crossing kind ⟨rest⟩ side := by
  rw [crossing, List.map_cons, List.sum_cons]
  rfl

def Finite (values : EdgeValues Extended) : Prop :=
  ∀ entry ∈ values.entries, ∃ q : Rat, entry.2 = .finite q

end EdgeValues

namespace CutGraph

/-! ### The shape of the working graph -/

/-- The working graph of a problem graph, with whatever weights. -/
def IsOf (c : CutGraph Extended) (g : Graph) : Prop := c.resetWeights = ofGraph g

theorem resetWeights_resetWeights (c : CutGraph Extended) :
    c.resetWeights.resetWeights = c.resetWeights := by
  simp [resetWeights, Function.comp_def]

theorem isOf_ofGraph (g : Graph) : (ofGraph g : CutGraph Extended).IsOf g := by
  simp [IsOf, resetWeights, ofGraph, Function.comp_def]

theorem IsOf.resetWeights {c : CutGraph Extended} {g : Graph} (h : c.IsOf g) :
    c.resetWeights.IsOf g := by
  rw [IsOf, resetWeights_resetWeights]
  exact h

theorem IsOf.input_eq {c : CutGraph Extended} {g : Graph} (h : c.IsOf g) : c.input = g :=
  congrArg (fun c : CutGraph Extended => c.input) h

theorem IsOf.skeleton_eq {c : CutGraph Extended} {g : Graph} (h : c.IsOf g) :
    c.skeleton = (ofGraph g : CutGraph Extended).skeleton := by
  rw [← h]
  rfl

theorem IsOf.ends_eq {c : CutGraph Extended} {g : Graph} (h : c.IsOf g) :
    c.links.map (fun link => (link.tail, link.head)) = c.skeleton.pairs := by
  have hlinks : c.resetWeights.links.map (fun link => (link.tail, link.head)) =
      (ofGraph g : CutGraph Extended).links.map fun link => (link.tail, link.head) := by
    rw [h]
  rw [h.skeleton_eq]
  simpa [CutGraph.resetWeights, ofGraph, Function.comp_def] using hlinks

theorem skeleton_wellFormed (g : Graph) :
    (ofGraph g : CutGraph Extended).skeleton.WellFormed := Graph.wellFormed_build _ _ _

theorem skeleton_undirected (g : Graph) :
    (ofGraph g : CutGraph Extended).skeleton.kind.isDirected = false := by
  simp [ofGraph, Graph.build_kind, GraphKind.isDirected]

theorem skeleton_vertices {g : Graph} (hg : g.WellFormed) :
    (ofGraph g : CutGraph Extended).skeleton.vertices = g.vertices := by
  refine Graph.vertices_build hg.nodup ?_
  intro e he
  simp only [List.mem_map, List.mem_filter] at he
  obtain ⟨⟨u, v⟩, ⟨huv, -⟩, rfl⟩ := he
  exact hg.mem_of_joined (Graph.joined_of_mem_pairs huv)

theorem skeleton_joined {g : Graph} (hg : g.WellFormed) {u v : Vertex} :
    (ofGraph g : CutGraph Extended).skeleton.Joined u v ↔
      u ≠ v ∧ (g.Joined u v ∨ g.Joined v u) := by
  show (Graph.build .simple _ _).Joined u v ↔ _
  rw [Graph.joined_build_simple]
  constructor
  · rintro ⟨e, he, hends⟩
    simp only [List.mem_map, List.mem_filter, bne_iff_ne] at he
    obtain ⟨⟨a, b⟩, ⟨hab, hne⟩, rfl⟩ := he
    rcases hends with ⟨rfl, rfl⟩ | ⟨rfl, rfl⟩
    · exact ⟨hne, Or.inl (Graph.joined_of_mem_pairs hab)⟩
    · exact ⟨Ne.symm hne, Or.inr (Graph.joined_of_mem_pairs hab)⟩
  · rintro ⟨hne, hjoined⟩
    have hpair : (u, v) ∈ g.pairs ∨ (v, u) ∈ g.pairs := by
      rcases hjoined with h | h
      · exact hg.mem_pairs_of_joined h
      · exact (hg.mem_pairs_of_joined h).symm
    rcases hpair with h | h
    · exact ⟨(u, v, none), List.mem_map.mpr ⟨(u, v), by simpa [h] using hne, rfl⟩, by simp⟩
    · exact ⟨(v, u, none), List.mem_map.mpr ⟨(v, u), by simpa [h] using hne.symm, rfl⟩, by simp⟩

theorem IsOf.simple {c : CutGraph Extended} {g : Graph} (h : c.IsOf g) (hg : g.WellFormed) :
    Link.Simple c.links := by
  have hends := h.ends_eq
  have hskeleton := h.skeleton_eq
  refine ⟨fun link hlink => ?_, ?_⟩
  · have hpair : (link.tail, link.head) ∈ c.skeleton.pairs := by
      rw [← hends]
      exact List.mem_map_of_mem hlink
    rw [hskeleton] at hpair
    exact ((skeleton_joined hg).mp (Graph.joined_of_mem_pairs hpair)).1
  · have hpairs := (skeleton_wellFormed g).pairwise_pairs (skeleton_undirected g)
    rwa [← hskeleton, ← hends, List.pairwise_map] at hpairs

/-- A link joins two vertices exactly when they are joined in the skeleton. -/
theorem IsOf.exists_link {c : CutGraph Extended} {g : Graph} (h : c.IsOf g) {u v : Vertex} :
    (∃ link ∈ c.links, link.joins u v = true) ↔ c.skeleton.Joined u v := by
  have hwf := skeleton_wellFormed g
  have hkind := skeleton_undirected g
  rw [← h.skeleton_eq] at hwf hkind
  constructor
  · rintro ⟨link, hlink, hjoins⟩
    have hpair : (link.tail, link.head) ∈ c.skeleton.pairs := by
      rw [← h.ends_eq]
      exact List.mem_map_of_mem hlink
    have hjoined := Graph.joined_of_mem_pairs hpair
    rcases Link.joins_iff.mp hjoins with heq | heq
    · obtain ⟨rfl, rfl⟩ := Prod.mk.inj heq
      exact hjoined
    · obtain ⟨rfl, rfl⟩ := Prod.mk.inj heq
      exact hjoined.symm hkind
  · intro hjoined
    have hpair := hwf.mem_pairs_of_joined hjoined
    rw [← h.ends_eq] at hpair
    rcases hpair with hpair | hpair <;> obtain ⟨link, hlink, heq⟩ := List.mem_map.mp hpair
    · exact ⟨link, hlink, Link.joins_iff.mpr (Or.inl heq)⟩
    · exact ⟨link, hlink, Link.joins_iff.mpr (Or.inr heq)⟩

/-! ### Setting the weights -/

theorem addWeight_ok {c c' : CutGraph Extended} {u v : Vertex} {value : Extended}
    (h : c.addWeight u v value = .ok c') :
    c.links.any (·.joins u v) = true ∧
      c' = { c with links := c.links.map (Link.raise u v value) } := by
  unfold addWeight at h
  split at h
  · rename_i hany
    exact ⟨hany, (Except.ok.inj h).symm⟩
  · cases h

/-- A value is passed over, or raises the weight of the link between the ends of its edge. -/
theorem addValue_ok {c c' : CutGraph Extended} {e : Edge} {value : Extended}
    (h : c.addValue e value = .ok c') :
    (c' = c ∧ (value ≤ precision ∨ ∃ u, c.input.kind.endpoints e = .ok (u, u))) ∨
      ∃ u v, ¬value ≤ precision ∧ c.input.kind.endpoints e = .ok (u, v) ∧ u ≠ v ∧
        c.links.any (·.joins u v) = true ∧
        c' = { c with links := c.links.map (Link.raise u v value) } := by
  unfold addValue at h
  split at h
  · rename_i hsmall
    exact Or.inl ⟨(Except.ok.inj h).symm, Or.inl hsmall⟩
  · rename_i hlarge
    cases hends : c.input.kind.endpoints e with
    | error fault => simp [hends, bind, Except.bind] at h
    | ok ends =>
        obtain ⟨u, v⟩ := ends
        simp only [hends, bind, Except.bind] at h
        split at h
        · rename_i huv
          subst huv
          exact Or.inl ⟨(Except.ok.inj h).symm, Or.inr ⟨u, rfl⟩⟩
        · rename_i huv
          obtain ⟨hany, hc'⟩ := addWeight_ok h
          exact Or.inr ⟨u, v, hlarge, rfl, huv, hany, hc'⟩

theorem resetWeights_raise (c : CutGraph Extended) (u v : Vertex) (value : Extended) :
    ({ c with links := c.links.map (Link.raise u v value) } : CutGraph Extended).resetWeights =
      c.resetWeights := by
  simp [resetWeights, Function.comp_def]

/-- What is left after adding values is still the working graph of the same problem graph. -/
theorem resetWeights_addValues (c : CutGraph Extended) (entries : List (Edge × Extended)) :
    (c.addValues entries).2.resetWeights = c.resetWeights := by
  induction entries generalizing c with
  | nil => rfl
  | cons entry rest ih =>
      obtain ⟨e, value⟩ := entry
      rw [addValues]
      cases hadd : c.addValue e value with
      | error fault => rfl
      | ok c' =>
          simp only
          rw [ih]
          rcases addValue_ok hadd with ⟨rfl, -⟩ | ⟨u, v, -, -, -, -, rfl⟩
          · rfl
          · exact resetWeights_raise c u v value

theorem IsOf.refresh {c : CutGraph Extended} {g : Graph} (h : c.IsOf g)
    (values : EdgeValues Extended) : (c.refresh values).2.IsOf g := by
  rw [IsOf, CutGraph.refresh, resetWeights_addValues, resetWeights_resetWeights]
  exact h

theorem weighted_resetWeights (c : CutGraph Extended) : Link.Weighted c.resetWeights.links := by
  intro link hlink
  obtain ⟨old, -, rfl⟩ := List.mem_map.mp hlink
  exact ⟨0, Rat.le_refl, rfl⟩

theorem crossing_resetWeights (c : CutGraph Extended) (side : Vertex → Bool) :
    Link.crossing c.resetWeights.links side = 0 := by
  simp [Link.crossing, resetWeights, Function.comp_def]

/-- Added values cross where their edges do. -/
theorem addValues_ok {c : CutGraph Extended} {entries : List (Edge × Extended)}
    (hsimple : Link.Simple c.links) (hweighted : Link.Weighted c.links)
    (hfinite : ∀ entry ∈ entries, ∃ q : Rat, entry.2 = .finite q)
    (hok : (c.addValues entries).1 = .ok ()) :
    Link.Weighted (c.addValues entries).2.links ∧ ∀ side,
      Link.crossing (c.addValues entries).2.links side =
        Link.crossing c.links side + EdgeValues.crossing c.input.kind ⟨entries⟩ side := by
  induction entries generalizing c with
  | nil => exact ⟨hweighted, by simp [addValues, EdgeValues.crossing]⟩
  | cons entry rest ih =>
      obtain ⟨e, value⟩ := entry
      obtain ⟨x, hx⟩ := hfinite (e, value) List.mem_cons_self
      simp only at hx
      subst hx
      have hrest := fun entry hentry => hfinite entry (List.mem_cons_of_mem _ hentry)
      rw [addValues] at hok ⊢
      cases hadd : c.addValue e (.finite x) with
      | error fault => simp [hadd] at hok
      | ok c' =>
          simp only [hadd] at hok ⊢
          rcases addValue_ok hadd with ⟨rfl, hskip⟩ | ⟨u, v, hlarge, hends, huv, hany, rfl⟩
          · obtain ⟨hweighted', hcrossing⟩ := ih hsimple hweighted hrest hok
            refine ⟨hweighted', fun side => ?_⟩
            have hnone : ¬((precision : Extended) < .finite x ∧
                EdgeValues.splits c'.input.kind side e = true) := by
              rintro ⟨hlt, hsplits⟩
              rcases hskip with hsmall | ⟨u, hu⟩
              · simp only [Extended.precision_eq, Extended.finite_lt_finite,
                  Extended.finite_le_finite] at hlt hsmall
                exact absurd hlt (not_lt.mpr hsmall)
              · simp [EdgeValues.splits, hu] at hsplits
            rw [hcrossing side, EdgeValues.crossing_cons, if_neg hnone, zero_add]
          · have hlt : (1 / 1000000 : Rat) < x := by
              simpa using hlarge
            have hpos : 0 ≤ x := le_trans (by norm_num) hlt.le
            obtain ⟨hweighted', hcrossing⟩ :=
              ih (hsimple.raise u v (.finite x)) (hweighted.raise u v hpos) hrest hok
            refine ⟨hweighted', fun side => ?_⟩
            rw [hcrossing side, Link.crossing_raise hsimple hweighted hany]
            have hsplits : EdgeValues.splits c.input.kind side e = (side u != side v) := by
              simp [EdgeValues.splits, hends]
            simp only [EdgeValues.crossing_cons, hsplits, Extended.precision_eq,
              Extended.finite_lt_finite, hlt, true_and, Extended.toRat_finite]
            ring

/-- After a successful refresh the links carry exactly the given values. -/
theorem IsOf.refresh_crossing {c : CutGraph Extended} {g : Graph} (h : c.IsOf g)
    (hg : g.WellFormed) {values : EdgeValues Extended} (hfinite : values.Finite)
    (hok : (c.refresh values).1 = .ok ()) :
    Link.Weighted (c.refresh values).2.links ∧ ∀ side,
      Link.crossing (c.refresh values).2.links side = EdgeValues.crossing g.kind values side := by
  have hreset := h.resetWeights
  obtain ⟨hweighted, hcrossing⟩ := addValues_ok (hreset.simple hg) (weighted_resetWeights c)
    hfinite hok
  refine ⟨hweighted, fun side => ?_⟩
  rw [CutGraph.refresh, hcrossing side, crossing_resetWeights, zero_add, hreset.input_eq]

/-- Values of edges between joined vertices can be added. -/
theorem IsOf.addValues_eq_ok {c : CutGraph Extended} {g : Graph} (h : c.IsOf g)
    {entries : List (Edge × Extended)}
    (hentries : ∀ entry ∈ entries, ∃ u v, g.kind.endpoints entry.1 = .ok (u, v) ∧
      c.skeleton.Joined u v) : (c.addValues entries).1 = .ok () := by
  induction entries generalizing c with
  | nil => rfl
  | cons entry rest ih =>
      obtain ⟨e, value⟩ := entry
      obtain ⟨u, v, hends, hjoined⟩ := hentries (e, value) List.mem_cons_self
      have hrest := fun entry hentry => hentries entry (List.mem_cons_of_mem _ hentry)
      have hadd : ∃ c', c.addValue e value = .ok c' := by
        obtain ⟨link, hlink, hjoins⟩ := h.exists_link.mpr hjoined
        have hany : c.links.any (·.joins u v) = true := List.any_eq_true.mpr ⟨link, hlink, hjoins⟩
        unfold addValue
        split
        · exact ⟨c, rfl⟩
        · rw [h.input_eq, hends]
          simp only [bind, Except.bind]
          split
          · exact ⟨c, rfl⟩
          · exact ⟨_, by rw [addWeight, if_pos hany]⟩
      obtain ⟨c', hc'⟩ := hadd
      simp only [addValues, hc']
      rcases addValue_ok hc' with ⟨rfl, -⟩ | ⟨a, b, -, -, -, -, rfl⟩
      · exact ih h hrest
      · exact ih ((resetWeights_raise c a b value).trans h) hrest

theorem IsOf.refresh_eq_ok {c : CutGraph Extended} {g : Graph} (h : c.IsOf g)
    {values : EdgeValues Extended}
    (hvalues : ∀ entry ∈ values.entries, ∃ u v, g.kind.endpoints entry.1 = .ok (u, v) ∧
      c.skeleton.Joined u v) : (c.refresh values).1 = .ok () :=
  h.resetWeights.addValues_eq_ok hvalues

/-! ### Values that are refused -/

end CutGraph

/-- Whether an edge is given by two ends, or where edges have keys by two ends and a key. -/
def GraphKind.Names (kind : GraphKind) (e : Edge) (u v : Vertex) : Prop :=
  e = [u, v] ∨ kind.isMulti = true ∧ ∃ key, e = [u, v, key]

theorem GraphKind.endpoints_eq_ok_iff {kind : GraphKind} {e : Edge} {u v : Vertex} :
    kind.endpoints e = .ok (u, v) ↔ kind.Names e u v := by
  match e with
  | [] | [_] | [_, _] => simp [endpoints, asPair, Names]
  | [a, b, c] =>
      cases hmulti : kind.isMulti <;> simp [endpoints, asPair, Names, hmulti]
  | _ :: _ :: _ :: _ :: _ => simp [endpoints, asPair, Names]

/-- Something that is no edge of the graph in either direction, and no loop either: it has no two
ends, or two different ones that no edge joins. -/
def Graph.Foreign (g : Graph) (e : Edge) : Prop :=
  (∀ u v, ¬g.kind.Names e u v) ∨
    ∃ u v, g.kind.Names e u v ∧ u ≠ v ∧
      ∀ line ∈ g.lines, ¬SamePair (line.tail, line.head) (u, v)

theorem Graph.joined_or_joined {g : Graph} {u v : Vertex} :
    g.Joined u v ∨ g.Joined v u ↔ ∃ line ∈ g.lines, SamePair (line.tail, line.head) (u, v) := by
  simp only [joined_iff, SamePair, Prod.swap_prod_mk, Prod.mk.injEq]
  constructor
  · rintro (⟨line, hline, h | ⟨-, h⟩⟩ | ⟨line, hline, h | ⟨-, h⟩⟩)
    · exact ⟨line, hline, .inl h⟩
    · exact ⟨line, hline, .inr h⟩
    · exact ⟨line, hline, .inr h⟩
    · exact ⟨line, hline, .inl h⟩
  · rintro ⟨line, hline, h | h⟩
    · exact .inl ⟨line, hline, .inl h⟩
    · exact .inr ⟨line, hline, .inl h⟩

namespace CutGraph

variable {c : CutGraph Extended} {g : Graph}

/-- The links are the edges of the problem graph in either direction, less its loops. -/
theorem IsOf.any_joins_iff (h : c.IsOf g) (hg : g.WellFormed) {u v : Vertex} (hne : u ≠ v) :
    c.links.any (·.joins u v) = true ↔
      ∃ line ∈ g.lines, Graph.SamePair (line.tail, line.head) (u, v) := by
  rw [List.any_eq_true, h.exists_link, h.skeleton_eq, skeleton_joined hg, and_iff_right hne,
    Graph.joined_or_joined]

theorem IsOf.addValue_eq_error_iff (h : c.IsOf g) (hg : g.WellFormed) {e : Edge} {x : Rat} :
    (∃ fault, c.addValue e (.finite x) = .error fault) ↔
      precision < Extended.finite x ∧ g.Foreign e := by
  have hprecision : ¬Extended.finite x ≤ precision ↔ precision < Extended.finite x := by simp
  unfold addValue
  split
  case isTrue hsmall =>
    exact iff_of_false nofun fun hlarge => hprecision.mpr hlarge.1 hsmall
  case isFalse hlarge =>
    rw [and_iff_right (hprecision.mp hlarge), h.input_eq]
    cases hends : g.kind.endpoints e with
    | error fault =>
        have hnone : ∀ u v, ¬g.kind.Names e u v := fun u v hnames => by
          rw [GraphKind.endpoints_eq_ok_iff.mpr hnames] at hends
          cases hends
        exact iff_of_true ⟨fault, rfl⟩ (.inl hnone)
    | ok ends =>
        obtain ⟨u, v⟩ := ends
        have hnames := GraphKind.endpoints_eq_ok_iff.mp hends
        -- The two ends are the only ones that the edge names.
        have hforeign : g.Foreign e ↔
            u ≠ v ∧ ∀ line ∈ g.lines, ¬Graph.SamePair (line.tail, line.head) (u, v) := by
          constructor
          · rintro (hnone | ⟨a, b, hother, hab⟩)
            · exact absurd hnames (hnone u v)
            · rw [GraphKind.endpoints_eq_ok_iff.mpr hother] at hends
              obtain ⟨rfl, rfl⟩ := Prod.mk.inj (Except.ok.inj hends)
              exact hab
          · exact fun huv => .inr ⟨u, v, hnames, huv⟩
        rw [hforeign]
        simp only [bind, Except.bind]
        split
        case isTrue heq => simp [heq]
        case isFalse hne =>
          have hany := h.any_joins_iff hg hne
          rw [addWeight]
          split
          case isTrue hjoins =>
            obtain ⟨line, hline, hsame⟩ := hany.mp hjoins
            exact iff_of_false nofun fun hall => hall.2 line hline hsame
          case isFalse hnot =>
            refine iff_of_true ⟨_, rfl⟩ ⟨hne, fun line hline hsame => hnot ?_⟩
            exact hany.mpr ⟨line, hline, hsame⟩

theorem IsOf.addValue (h : c.IsOf g) {c' : CutGraph Extended} {e : Edge} {value : Extended}
    (hadd : c.addValue e value = .ok c') : c'.IsOf g := by
  rcases addValue_ok hadd with ⟨rfl, -⟩ | ⟨u, v, -, -, -, -, rfl⟩
  · exact h
  · exact (resetWeights_raise c u v value).trans h

theorem IsOf.addValues_eq_error_iff (h : c.IsOf g) (hg : g.WellFormed)
    {entries : List (Edge × Extended)}
    (hfinite : ∀ entry ∈ entries, ∃ q : Rat, entry.2 = .finite q) :
    (∃ fault, (c.addValues entries).1 = .error fault) ↔
      ∃ entry ∈ entries, precision < entry.2 ∧ g.Foreign entry.1 := by
  induction entries generalizing c with
  | nil => simp [addValues]
  | cons entry rest ih =>
      obtain ⟨e, value⟩ := entry
      obtain ⟨x, rfl⟩ : ∃ x, value = .finite x := hfinite (e, value) List.mem_cons_self
      have hfirst := h.addValue_eq_error_iff hg (e := e) (x := x)
      rw [List.exists_mem_cons_iff, ← hfirst, addValues]
      cases hadd : c.addValue e (.finite x) with
      | error fault => exact iff_of_true ⟨fault, rfl⟩ (.inl ⟨fault, rfl⟩)
      | ok c' =>
          have hrest := ih (h.addValue hadd) fun entry hentry =>
            hfinite entry (List.mem_cons_of_mem _ hentry)
          simpa using hrest

/-- A refresh fails exactly when the value of a foreign edge is above the precision. -/
theorem IsOf.refresh_eq_error_iff (h : c.IsOf g) (hg : g.WellFormed)
    {values : EdgeValues Extended} (hfinite : values.Finite) :
    (∃ fault, (c.refresh values).1 = .error fault) ↔
      ∃ entry ∈ values.entries, precision < entry.2 ∧ g.Foreign entry.1 :=
  h.resetWeights.addValues_eq_error_iff hg hfinite

theorem cutWeight_eq (hweighted : Link.Weighted c.links) (s : VertexSet) :
    c.cutWeight s = .finite (Link.crossing c.links fun v => decide (v ∈ s)) := by
  have hweight : ∀ link ∈ c.links.filter (·.crosses s),
      link.weight = .finite link.weight.toRat := by
    intro link hlink
    obtain ⟨q, -, hq⟩ := hweighted link (List.mem_filter.mp hlink).1
    rw [hq, Extended.toRat_finite]
  rw [cutWeight, List.map_congr_left hweight, Extended.sum_finite, Extended.sum_filter_map]
  rfl

end CutGraph

end TourSearch
