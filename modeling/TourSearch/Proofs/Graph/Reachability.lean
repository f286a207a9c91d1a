import TourSearch.Graph.Basic
import Mathlib

/-!
Graphs by their neighbours. What a sequence of additions builds is a well-formed graph, in which two
vertices are joined exactly when an edge between them was given. A component is the set of all
vertices that can be reached, and in an undirected graph the list of pairs names every joined pair
once.
-/

namespace TourSearch

theorem nodup_eraseDups {β : Type} [DecidableEq β] (l : List β) : l.eraseDups.Nodup := by
  induction hn : l.length using Nat.strong_induction_on generalizing l with
  | _ n ih =>
      cases l with
      | nil => simp
      | cons a l =>
          have hlen : (l.filter fun b => !b == a).length < n := by
            have := List.length_filter_le (fun b => !b == a) l
            simp only [List.length_cons] at hn
            omega
          rw [List.eraseDups_cons, List.nodup_cons]
          exact ⟨by simp, ih _ hlen _ rfl⟩

namespace Graph

/-- Vertices are listed once, and the ends of every edge are among them. -/
structure WellFormed (g : Graph) : Prop where
  nodup : g.vertices.Nodup
  ends : ∀ line ∈ g.lines, line.tail ∈ g.vertices ∧ line.head ∈ g.vertices

def Joined (g : Graph) (u v : Vertex) : Prop := v ∈ g.neighbours u

theorem joined_iff {g : Graph} {u v : Vertex} :
    g.Joined u v ↔ ∃ line ∈ g.lines, (line.tail = u ∧ line.head = v) ∨
      (g.kind.isDirected = false ∧ line.tail = v ∧ line.head = u) := by
  simp only [Joined, neighbours, List.mem_eraseDups, List.mem_filterMap]
  constructor
  · rintro ⟨line, hline, h⟩
    refine ⟨line, hline, ?_⟩
    split at h
    · rename_i htail
      exact Or.inl ⟨by simpa using htail, Option.some.inj h⟩
    · split at h
      · rename_i hhead
        simp only [Bool.and_eq_true, Bool.not_eq_true', beq_iff_eq] at hhead
        exact Or.inr ⟨hhead.1, Option.some.inj h, hhead.2⟩
      · cases h
  · rintro ⟨line, hline, ⟨rfl, rfl⟩ | ⟨hkind, rfl, rfl⟩⟩
    · exact ⟨line, hline, by simp⟩
    · refine ⟨line, hline, ?_⟩
      by_cases hloop : line.tail = line.head <;> simp [hloop, hkind]

theorem nodup_neighbours (g : Graph) (v : Vertex) : (g.neighbours v).Nodup := nodup_eraseDups _

theorem Joined.symm {g : Graph} (hkind : g.kind.isDirected = false) {u v : Vertex}
    (h : g.Joined u v) : g.Joined v u := by
  obtain ⟨line, hline, ⟨htail, hhead⟩ | ⟨-, htail, hhead⟩⟩ := joined_iff.mp h
  · exact joined_iff.mpr ⟨line, hline, Or.inr ⟨hkind, htail, hhead⟩⟩
  · exact joined_iff.mpr ⟨line, hline, Or.inl ⟨htail, hhead⟩⟩

theorem WellFormed.mem_of_joined {g : Graph} (hg : g.WellFormed) {u v : Vertex}
    (h : g.Joined u v) : u ∈ g.vertices ∧ v ∈ g.vertices := by
  obtain ⟨line, hline, ⟨rfl, rfl⟩ | ⟨-, rfl, rfl⟩⟩ := joined_iff.mp h
  · exact hg.ends line hline
  · exact (hg.ends line hline).symm

/-! ### Building -/

@[simp] theorem addVertex_kind (g : Graph) (v : Vertex) : (g.addVertex v).kind = g.kind := by
  unfold addVertex
  split <;> rfl

@[simp] theorem addVertex_lines (g : Graph) (v : Vertex) : (g.addVertex v).lines = g.lines := by
  unfold addVertex
  split <;> rfl

@[simp] theorem mem_addVertex {g : Graph} {u v : Vertex} :
    u ∈ (g.addVertex v).vertices ↔ u ∈ g.vertices ∨ u = v := by
  unfold addVertex
  split
  · rename_i hv
    exact ⟨Or.inl, fun h => h.elim id fun heq => heq ▸ hv⟩
  · simp

theorem addVertex_of_mem {g : Graph} {v : Vertex} (h : v ∈ g.vertices) : g.addVertex v = g := by
  simp [addVertex, h]

theorem WellFormed.addVertex {g : Graph} (hg : g.WellFormed) (v : Vertex) :
    (g.addVertex v).WellFormed := by
  refine ⟨?_, fun line hline => ?_⟩
  · unfold Graph.addVertex
    split
    · exact hg.nodup
    · rename_i hv
      rw [List.nodup_append]
      exact ⟨hg.nodup, by simp, by rintro a ha b hb rfl; simp at hb; exact hv (hb ▸ ha)⟩
  · rw [addVertex_lines] at hline
    rw [mem_addVertex, mem_addVertex]
    exact ⟨Or.inl (hg.ends line hline).1, Or.inl (hg.ends line hline).2⟩

/-- Adding an edge adds its ends, and at most one line between them. -/
theorem addEdge_cases (g : Graph) (u v : Vertex) (key : Option Vertex) :
    let h := (g.addVertex u).addVertex v
    (∃ k, g.addEdge u v key = { h with lines := h.lines ++ [⟨u, v, k⟩] }) ∨
      (g.addEdge u v key = h ∧ h.between u v ≠ []) := by
  intro h
  unfold addEdge
  simp only
  split
  · split
    · rename_i hany
      refine Or.inr ⟨rfl, fun hnil => ?_⟩
      rw [hnil] at hany
      simp at hany
    · exact Or.inl ⟨_, rfl⟩
  · split
    · exact Or.inl ⟨_, rfl⟩
    · rename_i hsome
      exact Or.inr ⟨rfl, fun hnil => hsome (by rw [hnil]; rfl)⟩

@[simp] theorem addEdge_kind (g : Graph) (u v : Vertex) (key : Option Vertex) :
    (g.addEdge u v key).kind = g.kind := by
  rcases g.addEdge_cases u v key with ⟨k, h⟩ | ⟨h, -⟩ <;> rw [h] <;> simp

theorem addEdge_vertices (g : Graph) (u v : Vertex) (key : Option Vertex) :
    (g.addEdge u v key).vertices = ((g.addVertex u).addVertex v).vertices := by
  rcases g.addEdge_cases u v key with ⟨k, h⟩ | ⟨h, -⟩ <;> rw [h]

theorem WellFormed.addEdge {g : Graph} (hg : g.WellFormed) (u v : Vertex) (key : Option Vertex) :
    (g.addEdge u v key).WellFormed := by
  have hends := (hg.addVertex u).addVertex v
  rcases g.addEdge_cases u v key with ⟨k, h⟩ | ⟨h, -⟩
  · rw [h]
    refine ⟨hends.nodup, fun line hline => ?_⟩
    rcases List.mem_append.mp hline with hold | hnew
    · exact hends.ends line hold
    · rw [List.mem_singleton.mp hnew]
      simp
  · exact h ▸ hends

/-- In an undirected graph an added edge joins its ends in both directions. -/
theorem joined_addEdge {g : Graph} (hkind : g.kind.isDirected = false) (u v : Vertex)
    (key : Option Vertex) (a b : Vertex) :
    (g.addEdge u v key).Joined a b ↔ g.Joined a b ∨ (a = u ∧ b = v) ∨ (a = v ∧ b = u) := by
  have hboth : ((g.addVertex u).addVertex v).Joined a b ↔ g.Joined a b := by
    simp [joined_iff]
  rcases g.addEdge_cases u v key with ⟨k, h⟩ | ⟨h, hparallel⟩
  · rw [h, ← hboth, joined_iff, joined_iff]
    simp only [addVertex_kind, hkind, true_and, List.mem_append, List.mem_singleton]
    constructor
    · rintro ⟨line, hline | rfl, hends⟩
      · exact Or.inl ⟨line, hline, hends⟩
      · rcases hends with ⟨rfl, rfl⟩ | ⟨rfl, rfl⟩ <;> simp
    · rintro (⟨line, hline, hends⟩ | ⟨rfl, rfl⟩ | ⟨rfl, rfl⟩)
      · exact ⟨line, Or.inl hline, hends⟩
      · exact ⟨_, Or.inr rfl, Or.inl ⟨rfl, rfl⟩⟩
      · exact ⟨_, Or.inr rfl, Or.inr ⟨rfl, rfl⟩⟩
  · rw [h, hboth]
    refine ⟨Or.inl, fun hab => ?_⟩
    obtain ⟨line, hline⟩ := List.exists_mem_of_ne_nil _ hparallel
    simp only [between, List.mem_filter, addVertex_lines, addVertex_kind, Line.joins, hkind,
      Bool.or_eq_true, Bool.and_eq_true, beq_iff_eq, Bool.not_false, true_and] at hline
    obtain ⟨hmem, hends⟩ := hline
    have huv : g.Joined u v := joined_iff.mpr ⟨line, hmem, by
      rcases hends with hends | hends
      · exact Or.inl hends
      · exact Or.inr ⟨hkind, hends⟩⟩
    rcases hab with hab | ⟨rfl, rfl⟩ | ⟨rfl, rfl⟩
    · exact hab
    · exact huv
    · exact huv.symm hkind

theorem build_eq (kind : GraphKind) (vs : List Vertex)
    (edges : List (Vertex × Vertex × Option Vertex)) : build kind vs edges =
      edges.foldl (fun g e => g.addEdge e.1 e.2.1 e.2.2) (vs.foldl addVertex (empty kind)) := rfl

theorem wellFormed_build (kind : GraphKind) (vs : List Vertex)
    (edges : List (Vertex × Vertex × Option Vertex)) : (build kind vs edges).WellFormed := by
  have hvertices : ∀ g : Graph, g.WellFormed → (vs.foldl addVertex g).WellFormed := by
    induction vs with
    | nil => exact fun g hg => hg
    | cons v vs ih => exact fun g hg => ih _ (hg.addVertex v)
  have hedges : ∀ g : Graph, g.WellFormed →
      (edges.foldl (fun g e => g.addEdge e.1 e.2.1 e.2.2) g).WellFormed := by
    induction edges with
    | nil => exact fun g hg => hg
    | cons e edges ih => exact fun g hg => ih _ (hg.addEdge e.1 e.2.1 e.2.2)
  rw [build_eq]
  exact hedges _ (hvertices _ ⟨List.nodup_nil, fun _ h => absurd h List.not_mem_nil⟩)

@[simp] theorem foldl_addVertex_kind (vs : List Vertex) (g : Graph) :
    (vs.foldl addVertex g).kind = g.kind := by
  induction vs generalizing g with
  | nil => rfl
  | cons v vs ih => rw [List.foldl_cons, ih, addVertex_kind]

@[simp] theorem foldl_addVertex_lines (vs : List Vertex) (g : Graph) :
    (vs.foldl addVertex g).lines = g.lines := by
  induction vs generalizing g with
  | nil => rfl
  | cons v vs ih => rw [List.foldl_cons, ih, addVertex_lines]

theorem foldl_addVertex_vertices {vs : List Vertex} {g : Graph} (h : (g.vertices ++ vs).Nodup) :
    (vs.foldl addVertex g).vertices = g.vertices ++ vs := by
  induction vs generalizing g with
  | nil => simp
  | cons v vs ih =>
      have hv : v ∉ g.vertices := fun hv =>
        (List.nodup_append.mp h).2.2 v hv v List.mem_cons_self rfl
      have hadd : (g.addVertex v).vertices = g.vertices ++ [v] := by simp [addVertex, hv]
      rw [List.foldl_cons, ih (by rw [hadd]; simpa using h), hadd]
      simp

/-- What is joined in the simple graph of some edges. -/
theorem joined_build_simple (vs : List Vertex) (edges : List (Vertex × Vertex × Option Vertex))
    (a b : Vertex) :
    (build .simple vs edges).Joined a b ↔
      ∃ e ∈ edges, (a = e.1 ∧ b = e.2.1) ∨ (a = e.2.1 ∧ b = e.1) := by
  have hfold : ∀ g : Graph, g.kind = .simple →
      ((edges.foldl (fun g e => g.addEdge e.1 e.2.1 e.2.2) g).Joined a b ↔
        g.Joined a b ∨ ∃ e ∈ edges, (a = e.1 ∧ b = e.2.1) ∨ (a = e.2.1 ∧ b = e.1)) := by
    induction edges with
    | nil => simp
    | cons e edges ih =>
        intro g hg
        rw [List.foldl_cons, ih _ (by simp [hg]), joined_addEdge (by rw [hg]; rfl), or_assoc]
        simp [or_and_right, exists_or]
  have hstart : ¬(vs.foldl addVertex (empty .simple)).Joined a b := by
    rw [joined_iff]
    simp [empty]
  rw [build_eq, hfold _ (by simp [empty])]
  simp [hstart]

theorem vertices_build {kind : GraphKind} {vs : List Vertex}
    {edges : List (Vertex × Vertex × Option Vertex)} (hnodup : vs.Nodup)
    (hends : ∀ e ∈ edges, e.1 ∈ vs ∧ e.2.1 ∈ vs) : (build kind vs edges).vertices = vs := by
  have hfold : ∀ g : Graph, g.vertices = vs →
      (edges.foldl (fun g e => g.addEdge e.1 e.2.1 e.2.2) g).vertices = vs := by
    induction edges with
    | nil => exact fun g hg => hg
    | cons e edges ih =>
        intro g hg
        obtain ⟨hu, hv⟩ := hends e List.mem_cons_self
        rw [← hg] at hu hv
        refine ih (fun e' he' => hends e' (List.mem_cons_of_mem _ he')) _ ?_
        rw [addEdge_vertices, addVertex_of_mem hu, addVertex_of_mem hv, hg]
  rw [build_eq]
  apply hfold
  rw [foldl_addVertex_vertices (by simpa [empty] using hnodup)]
  simp [empty]

theorem mem_vertices_build {kind : GraphKind} {vs : List Vertex}
    {edges : List (Vertex × Vertex × Option Vertex)} {v : Vertex} (hv : v ∈ vs) :
    v ∈ (build kind vs edges).vertices := by
  have hvertices : ∀ g : Graph, v ∈ (vs.foldl addVertex g).vertices ↔ v ∈ g.vertices ∨ v ∈ vs := by
    clear hv
    induction vs with
    | nil => simp
    | cons w vs ih =>
        intro g
        rw [List.foldl_cons, ih, mem_addVertex, List.mem_cons, or_assoc]
  have hedges : ∀ g : Graph, v ∈ g.vertices →
      v ∈ (edges.foldl (fun g e => g.addEdge e.1 e.2.1 e.2.2) g).vertices := by
    induction edges with
    | nil => exact fun g hg => hg
    | cons e edges ih =>
        intro g hg
        apply ih
        rw [addEdge_vertices, mem_addVertex, mem_addVertex]
        exact Or.inl (Or.inl hg)
  rw [build_eq]
  exact hedges _ ((hvertices _).mpr (Or.inr hv))

theorem build_kind (kind : GraphKind) (vs : List Vertex)
    (edges : List (Vertex × Vertex × Option Vertex)) : (build kind vs edges).kind = kind := by
  rw [build_eq]
  have hstart : (vs.foldl addVertex (empty kind)).kind = kind := by simp [empty]
  generalize vs.foldl addVertex (empty kind) = g at hstart
  induction edges generalizing g with
  | nil => exact hstart
  | cons e edges ih => exact ih _ (by simpa using hstart)

/-! ### Components -/

abbrev Reaches (g : Graph) : Vertex → Vertex → Prop := Relation.ReflTransGen g.Joined

theorem subset_reach (g : Graph) (steps : Nat) (found : List Vertex) :
    found ⊆ g.reach steps found := by
  induction steps generalizing found with
  | zero => exact List.Subset.refl found
  | succ steps ih =>
      rw [reach]
      split
      · exact List.Subset.refl found
      · exact fun v hv => ih _ (List.mem_append_left _ hv)

theorem reaches_of_mem_reach {g : Graph} {steps : Nat} {found : List Vertex} {v : Vertex}
    (h : v ∈ g.reach steps found) : ∃ u ∈ found, g.Reaches u v := by
  induction steps generalizing found with
  | zero => exact ⟨v, h, .refl⟩
  | succ steps ih =>
      rw [reach] at h
      split at h
      · exact ⟨v, h, .refl⟩
      · obtain ⟨u, hu, huv⟩ := ih h
        rcases List.mem_append.mp hu with hu | hu
        · exact ⟨u, hu, huv⟩
        · simp only [List.mem_eraseDups, List.mem_filter, List.mem_flatMap] at hu
          obtain ⟨⟨w, hw, hwu⟩, -⟩ := hu
          exact ⟨w, hw, Relation.ReflTransGen.head hwu huv⟩

/-- With a step for every vertex that is not yet found, nothing joined to the result is left out. -/
theorem WellFormed.reach_closed {g : Graph} (hg : g.WellFormed) {steps : Nat} {found : List Vertex}
    (hnodup : found.Nodup) (hsub : found ⊆ g.vertices)
    (hsteps : g.vertices.length ≤ found.length + steps) {u v : Vertex}
    (hu : u ∈ g.reach steps found) (huv : g.Joined u v) : v ∈ g.reach steps found := by
  induction steps generalizing found with
  | zero =>
      have hall : g.vertices ⊆ found :=
        (List.subperm_of_subset hnodup hsub).perm_of_length_le (by omega) |>.symm.subset
      exact hall (hg.mem_of_joined huv).2
  | succ steps ih =>
      rw [reach] at hu ⊢
      generalize hnew : ((found.flatMap g.neighbours).filter fun w => !found.contains w).eraseDups =
        new at hu ⊢
      have hmem : ∀ w, w ∈ new ↔ (∃ x ∈ found, g.Joined x w) ∧ w ∉ found := by
        intro w
        rw [← hnew]
        simp [Joined]
      split at hu
      · rename_i hempty
        rw [if_pos hempty]
        by_contra hv
        have : v ∈ new := (hmem v).mpr ⟨⟨u, hu, huv⟩, hv⟩
        rw [List.isEmpty_iff.mp hempty] at this
        exact absurd this List.not_mem_nil
      · rename_i hsome
        rw [if_neg hsome]
        have hpos : 0 < new.length := by
          rw [List.length_pos_iff]
          simpa using hsome
        refine ih ?_ ?_ (by rw [List.length_append]; omega) hu
        · rw [List.nodup_append]
          refine ⟨hnodup, hnew ▸ nodup_eraseDups _, ?_⟩
          rintro a ha b hb rfl
          exact ((hmem a).mp hb).2 ha
        · intro w hw
          rcases List.mem_append.mp hw with hw | hw
          · exact hsub hw
          · obtain ⟨⟨x, -, hxw⟩, -⟩ := (hmem w).mp hw
            exact (hg.mem_of_joined hxw).2

/-- A component consists of the vertices that can be reached. -/
theorem WellFormed.mem_component {g : Graph} (hg : g.WellFormed) {u v : Vertex}
    (hu : u ∈ g.vertices) : v ∈ g.component u ↔ g.Reaches u v := by
  rw [component, SortedSet.mem_ofList]
  constructor
  · intro hv
    obtain ⟨w, hw, hwv⟩ := reaches_of_mem_reach hv
    rwa [List.mem_singleton.mp hw] at hwv
  · intro huv
    induction huv with
    | refl => exact subset_reach g _ _ (List.mem_singleton_self u)
    | tail _ hjoined ih =>
        exact hg.reach_closed (List.nodup_singleton u) (by simpa using hu) (by simp) ih hjoined

theorem componentsFrom_eq_nil (g : Graph) {c : VertexSet} {vs : List Vertex} :
    g.componentsFrom [c] vs = [] ↔ ∀ v ∈ vs, v ∈ c := by
  induction vs with
  | nil => simp [componentsFrom]
  | cons v vs ih =>
      by_cases hv : v ∈ c
      · simp [componentsFrom, hv, ih]
      · simp [componentsFrom, hv]

theorem isConnected_iff {g : Graph} {v : Vertex} {rest : List Vertex}
    (hvertices : g.vertices = v :: rest) :
    g.isConnected = true ↔ ∀ w ∈ rest, w ∈ g.component v := by
  have hcomponents : g.components = g.component v :: g.componentsFrom [g.component v] rest := by
    rw [components, hvertices]
    simp [componentsFrom]
  rw [isConnected, hcomponents, ← g.componentsFrom_eq_nil]
  simp

theorem components_head {g : Graph} {v : Vertex} {rest : List Vertex}
    (hvertices : g.vertices = v :: rest) : g.components.head? = some (g.component v) := by
  rw [components, hvertices]
  simp [componentsFrom]

/-- In a connected graph whatever distinguishes two vertices distinguishes two joined ones. -/
theorem WellFormed.exists_joined_of_isConnected {g : Graph} (hg : g.WellFormed)
    (hconnected : g.isConnected = true) (side : Vertex → Bool) {a b : Vertex}
    (ha : a ∈ g.vertices) (hb : b ∈ g.vertices) (hab : side a ≠ side b) :
    ∃ u v, g.Joined u v ∧ side u ≠ side v := by
  cases hvertices : g.vertices with
  | nil => simp [hvertices] at ha
  | cons v rest =>
      have hv : v ∈ g.vertices := by simp [hvertices]
      have hreaches : ∀ w ∈ g.vertices, g.Reaches v w := by
        intro w hw
        rw [hvertices] at hw
        rcases List.mem_cons.mp hw with rfl | hw
        · exact .refl
        · exact (hg.mem_component hv).mp ((isConnected_iff hvertices).mp hconnected w hw)
      by_contra hnone
      push Not at hnone
      have hsame : ∀ w, g.Reaches v w → side v = side w := by
        intro w hw
        induction hw with
        | refl => rfl
        | tail _ hjoined ih => exact ih.trans (hnone _ _ hjoined)
      exact hab ((hsame a (hreaches a ha)).symm.trans (hsame b (hreaches b hb)))

/-! ### Pairs -/

theorem joined_of_mem_pairsFrom {g : Graph} {seen vs : List Vertex} {p : Vertex × Vertex}
    (h : p ∈ g.pairsFrom seen vs) :
    p.1 ∈ vs ∧ g.Joined p.1 p.2 ∧ (g.kind.isDirected = false → p.2 ∉ seen) := by
  induction vs generalizing seen with
  | nil => simp [pairsFrom] at h
  | cons v vs ih =>
      rw [pairsFrom, List.mem_append] at h
      rcases h with h | h
      · simp only [List.mem_map, List.mem_filter, Bool.or_eq_true, Bool.not_eq_true'] at h
        obtain ⟨w, ⟨hw, hseen⟩, rfl⟩ := h
        refine ⟨List.mem_cons_self, hw, fun hkind => ?_⟩
        rw [hkind] at hseen
        simpa using hseen
      · obtain ⟨hmem, hjoined, hseen⟩ := ih h
        exact ⟨List.mem_cons_of_mem _ hmem, hjoined,
          fun hkind hp => hseen hkind (List.mem_cons_of_mem _ hp)⟩

theorem joined_of_mem_pairs {g : Graph} {u v : Vertex} (h : (u, v) ∈ g.pairs) : g.Joined u v :=
  (joined_of_mem_pairsFrom h).2.1

/-- A joined pair is listed from one of its vertices, unless the other one was seen before. -/
theorem mem_pairsFrom_of_joined {g : Graph} {seen vs : List Vertex} {a b : Vertex}
    (hseen : ∀ v ∈ vs, v ∉ seen) (hnodup : vs.Nodup) (ha : a ∈ vs) (hab : g.Joined a b) :
    (a, b) ∈ g.pairsFrom seen vs ∨ (b, a) ∈ g.pairsFrom seen vs ∨
      (g.kind.isDirected = false ∧ b ∈ seen) := by
  induction vs generalizing seen with
  | nil => simp at ha
  | cons v vs ih =>
      obtain ⟨hv, hnodup⟩ := List.nodup_cons.mp hnodup
      rw [pairsFrom, List.mem_append, List.mem_append]
      -- The pairs that the first vertex contributes.
      have hfirst : ∀ x y, x = v → g.Joined x y → (g.kind.isDirected = false → y ∉ seen) →
          (x, y) ∈ ((g.neighbours v).filter fun w =>
            g.kind.isDirected || !seen.contains w).map fun w => (v, w) := by
        rintro x y rfl hxy hy
        refine List.mem_map.mpr ⟨y, List.mem_filter.mpr ⟨hxy, ?_⟩, rfl⟩
        cases hkind : g.kind.isDirected with
        | true => rfl
        | false => simpa using hy hkind
      rcases List.mem_cons.mp ha with rfl | hrest
      · by_cases hb : g.kind.isDirected = false ∧ b ∈ seen
        · exact Or.inr (Or.inr hb)
        · exact Or.inl (Or.inl (hfirst a b rfl hab fun hkind hmem => hb ⟨hkind, hmem⟩))
      · have hseen' : ∀ w ∈ vs, w ∉ v :: seen := by
          intro w hw hmem
          rcases List.mem_cons.mp hmem with rfl | hmem
          · exact hv hw
          · exact hseen w (List.mem_cons_of_mem _ hw) hmem
        rcases ih hseen' hnodup hrest with h | h | ⟨hkind, h⟩
        · exact Or.inl (Or.inr h)
        · exact Or.inr (Or.inl (Or.inr h))
        · rcases List.mem_cons.mp h with rfl | h
          · refine Or.inr (Or.inl (Or.inl (hfirst b a rfl (hab.symm hkind) fun _ => ?_)))
            exact hseen a ha
          · exact Or.inr (Or.inr ⟨hkind, h⟩)

theorem WellFormed.mem_pairs_of_joined {g : Graph} (hg : g.WellFormed) {u v : Vertex}
    (h : g.Joined u v) : (u, v) ∈ g.pairs ∨ (v, u) ∈ g.pairs := by
  rcases mem_pairsFrom_of_joined (fun _ _ => List.not_mem_nil) hg.nodup (hg.mem_of_joined h).1 h
    with huv | hvu | ⟨-, hnil⟩
  · exact Or.inl huv
  · exact Or.inr hvu
  · exact absurd hnil List.not_mem_nil

def SamePair (p q : Vertex × Vertex) : Prop := p = q ∨ p = q.swap

theorem pairwise_pairsFrom {g : Graph} (hkind : g.kind.isDirected = false) {seen vs : List Vertex}
    (hnodup : vs.Nodup) : (g.pairsFrom seen vs).Pairwise fun p q => ¬SamePair p q := by
  induction vs generalizing seen with
  | nil => simp [pairsFrom]
  | cons v vs ih =>
      obtain ⟨hv, hnodup⟩ := List.nodup_cons.mp hnodup
      rw [pairsFrom, List.pairwise_append]
      refine ⟨?_, ih hnodup, ?_⟩
      · rw [List.pairwise_map]
        refine ((g.nodup_neighbours v).filter _).imp ?_
        rintro a b hab (heq | heq)
        · exact hab (Prod.mk.inj heq).2
        · obtain ⟨hb, ha⟩ := Prod.mk.inj heq
          exact hab (ha.trans hb)
      · rintro p hp q hq hsame
        obtain ⟨w, -, rfl⟩ := List.mem_map.mp hp
        obtain ⟨hmem, -, hseen⟩ := joined_of_mem_pairsFrom hq
        rcases hsame with heq | heq
        · exact hv (by rw [(Prod.mk.inj heq.symm).1] at hmem; exact hmem)
        · exact hseen hkind (by rw [← (Prod.mk.inj heq).1]; exact List.mem_cons_self)

/-- In an undirected graph no pair is listed twice, in either direction. -/
theorem WellFormed.pairwise_pairs {g : Graph} (hg : g.WellFormed)
    (hkind : g.kind.isDirected = false) : g.pairs.Pairwise fun p q => ¬SamePair p q :=
  pairwise_pairsFrom hkind hg.nodup

end Graph

end TourSearch
