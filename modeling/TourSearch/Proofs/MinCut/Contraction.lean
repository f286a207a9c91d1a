import TourSearch.Proofs.MinCut.Phase
import Mathlib

/-!
The whole contraction. Every phase gives the cut of the graph that the mergers before it left
(`Contracts`); such a cut is one of the first graph, around all vertices that were merged into one
(`destination`). A cut of the first graph separates the two vertices of some merger, so one of the
phases is at least as light, and the best phase gives a minimum cut (`globalCut_spec`).
-/

namespace TourSearch.MinCut

open Numeric Adjacency

/-! ### Where vertices are merged to -/

/-- Where a list of mergers takes a vertex. -/
def destination (mergers : List (Vertex × Vertex)) (x : Vertex) : Vertex :=
  mergers.foldl (fun r (u, v) => merge u v r) x

@[simp] theorem destination_cons (u v : Vertex) (rest : List (Vertex × Vertex)) (x : Vertex) :
    destination ((u, v) :: rest) x = destination rest (merge u v x) := rfl

theorem merge_of_ne {u v a : Vertex} (h : a ≠ v) : merge u v a = a := if_neg h

@[simp] theorem merge_self (u v : Vertex) : merge u v v = u := if_pos rfl

/-- A vertex that was merged into another one is not met again. -/
def Retiring (mergers : List (Vertex × Vertex)) : Prop :=
  mergers.Pairwise fun p q => q.1 ≠ p.2 ∧ q.2 ≠ p.2

/-- The two vertices of a merger go the same way. -/
theorem Retiring.destination_eq {mergers : List (Vertex × Vertex)} (h : Retiring mergers)
    {u v : Vertex} (huv : (u, v) ∈ mergers) : destination mergers u = destination mergers v := by
  induction mergers with
  | nil => cases huv
  | cons p rest ih =>
      obtain ⟨a, b⟩ := p
      obtain ⟨hfirst, hrest⟩ := List.pairwise_cons.mp h
      rw [destination_cons, destination_cons]
      rcases List.mem_cons.mp huv with heq | hmem
      · obtain ⟨rfl, rfl⟩ := Prod.mk.inj heq
        by_cases huv' : u = v
        · rw [huv']
        · rw [merge_of_ne huv', merge_self]
      · obtain ⟨hu, hv⟩ := hfirst _ hmem
        rw [merge_of_ne hu, merge_of_ne hv]
        exact ih hrest hmem

theorem destination_eq_self {mergers : List (Vertex × Vertex)} {x : Vertex}
    (h : ∀ p ∈ mergers, p.2 ≠ x) : destination mergers x = x := by
  induction mergers with
  | nil => rfl
  | cons p rest ih =>
      obtain ⟨a, b⟩ := p
      rw [destination_cons, merge_of_ne (h (a, b) List.mem_cons_self).symm]
      exact ih fun q hq => h q (List.mem_cons_of_mem _ hq)

/-- The vertices that were merged into one are those that end there. -/
theorem mem_mergedInto {mergers : List (Vertex × Vertex)} (h : Retiring mergers) {v : Vertex}
    (hv : ∀ p ∈ mergers, p.2 ≠ v) {x : Vertex} :
    x ∈ mergedInto mergers v ↔ destination mergers x = v := by
  unfold mergedInto
  generalize hg : Graph.build .simple [v] (mergers.map fun (u, w) => (u, w, none)) = g
  have hwf : g.WellFormed := hg ▸ Graph.wellFormed_build _ _ _
  have hkind : g.kind.isDirected = false := by rw [← hg, Graph.build_kind]; rfl
  have hjoined : ∀ a b, g.Joined a b ↔ (a, b) ∈ mergers ∨ (b, a) ∈ mergers := by
    intro a b
    rw [← hg, Graph.joined_build_simple]
    simp only [List.mem_map]
    constructor
    · rintro ⟨-, ⟨⟨u, w⟩, hmem, rfl⟩, ⟨rfl, rfl⟩ | ⟨rfl, rfl⟩⟩
      · exact Or.inl hmem
      · exact Or.inr hmem
    · rintro (hmem | hmem)
      · exact ⟨_, ⟨_, hmem, rfl⟩, Or.inl ⟨rfl, rfl⟩⟩
      · exact ⟨_, ⟨_, hmem, rfl⟩, Or.inr ⟨rfl, rfl⟩⟩
  have hvertex : v ∈ g.vertices := hg ▸ Graph.mem_vertices_build List.mem_cons_self
  rw [hwf.mem_component hvertex]
  constructor
  · intro hreaches
    have hsame : destination mergers x = destination mergers v := by
      induction hreaches with
      | refl => rfl
      | tail _ hstep ih =>
          rcases (hjoined _ _).mp hstep with hmem | hmem
          · rw [← ih, h.destination_eq hmem]
          · rw [← ih, h.destination_eq hmem]
    rw [hsame, destination_eq_self hv]
  · -- Every merger follows an edge.
    have hway : ∀ ms : List (Vertex × Vertex), ms ⊆ mergers → ∀ a,
      g.Reaches (destination ms a) a := by
      intro ms
      induction ms with
      | nil => exact fun _ a => .refl
      | cons p rest ih =>
          obtain ⟨u, w⟩ := p
          intro hsub a
          have hrest := ih (fun q hq => hsub (List.mem_cons_of_mem _ hq)) (merge u w a)
          rw [destination_cons]
          by_cases ha : a = w
          · subst ha
            rw [merge_self] at hrest ⊢
            exact hrest.tail ((hjoined u a).mpr (Or.inl (hsub List.mem_cons_self)))
          · rwa [merge_of_ne ha] at hrest ⊢
    intro hx
    have := hway mergers (List.Subset.refl _) x
    rwa [hx] at this

/-! ### The phases -/

/-- Phases that contract a graph to one vertex, each with the cut of what is left. -/
inductive Contracts : Adjacency Extended → List (Vertex × Vertex × Extended) → Prop
  | done {h : Adjacency Extended} (size : h.keys.length = 1) : Contracts h []
  | phase {h : Adjacency Extended} {u v : Vertex} {q : Rat}
      {rest : List (Vertex × Vertex × Extended)} (sound : h.Sound) (cut : PhaseCut h u v q)
      (further : Contracts (h.contract u v) rest) : Contracts h ((u, v, .finite q) :: rest)

theorem Adjacency.Sound.length_keys_contract {h : Adjacency Extended} (hh : h.Sound) {u v : Vertex}
    (hu : u ∈ h.keys) (hv : v ∈ h.keys) :
    (h.contract u v).keys.length + 1 = h.keys.length := by
  rw [← (hh.contract hu).card_vertices, hh.vertices_contract hu, ← hh.card_vertices]
  exact Finset.card_erase_add_one (mem_vertices.mpr hv)

theorem contracts_phases {count : Nat} {h : Adjacency Extended} (hh : h.Sound) (hc : h.Connected)
    (hsize : h.keys.length = count + 1) : Contracts h (phases count h) := by
  induction count generalizing h with
  | zero => exact .done hsize
  | succ count ih =>
      obtain ⟨u, v, q, hphase, hcut⟩ := phase?_spec hh hc (by omega)
      have hlength := hh.length_keys_contract hcut.fst_mem hcut.snd_mem
      rw [phases, hphase]
      exact .phase hh hcut (ih (hh.contract hcut.fst_mem) (hc.contract hh hcut.fst_mem hcut.ne)
        (by omega))

theorem mem_keys_of_mem_contract {h : Adjacency Extended} (hh : h.Sound) {u v a : Vertex}
    (hu : u ∈ h.keys) (ha : a ∈ (h.contract u v).keys) : a ∈ h.keys ∧ a ≠ v := by
  rw [hh.keys_contract hu, List.mem_filter] at ha
  simpa using ha

theorem mem_keys_contract {h : Adjacency Extended} (hh : h.Sound) {u v a : Vertex}
    (hu : u ∈ h.keys) (ha : a ∈ h.keys) (hav : a ≠ v) : a ∈ (h.contract u v).keys := by
  rw [hh.keys_contract hu, List.mem_filter]
  exact ⟨ha, by simpa using hav⟩

theorem Contracts.mem_keys {h : Adjacency Extended} {found : List (Vertex × Vertex × Extended)}
    (hf : Contracts h found) {p : Vertex × Vertex × Extended} (hp : p ∈ found) :
    p.1 ∈ h.keys ∧ p.2.1 ∈ h.keys := by
  induction hf with
  | done => cases hp
  | phase sound cut _ ih =>
      rcases List.mem_cons.mp hp with rfl | hp
      · exact ⟨cut.fst_mem, cut.snd_mem⟩
      · obtain ⟨h₁, h₂⟩ := ih hp
        exact ⟨(mem_keys_of_mem_contract sound cut.fst_mem h₁).1,
          (mem_keys_of_mem_contract sound cut.fst_mem h₂).1⟩

/-- Any cut is at least as heavy as that of the phase that first separates it. -/
theorem Contracts.exists_le {h : Adjacency Extended} {found : List (Vertex × Vertex × Extended)}
    (hf : Contracts h found) (side : Vertex → Bool) {a b : Vertex} (ha : a ∈ h.keys)
    (hb : b ∈ h.keys) (hab : side a ≠ side b) :
    ∃ p ∈ found, p.2.2 ≤ .finite (crossingIn h.weight side h.vertices) := by
  induction hf generalizing a b with
  | done size =>
      obtain ⟨c, hc⟩ := List.length_eq_one_iff.mp size
      rw [hc, List.mem_singleton] at ha hb
      exact absurd (by rw [ha, hb]) hab
  | @phase h u v q rest sound cut _ ih =>
      by_cases hside : side u = side v
      · have hmerge : ∀ x, side (merge u v x) = side x := by
          intro x
          by_cases hx : x = v
          · rw [hx, merge_self, hside]
          · rw [merge_of_ne hx]
        have hkeys : ∀ x ∈ h.keys, merge u v x ∈ (h.contract u v).keys := by
          intro x hx
          by_cases hxv : x = v
          · rw [hxv, merge_self]
            exact mem_keys_contract sound cut.fst_mem cut.fst_mem cut.ne
          · rw [merge_of_ne hxv]
            exact mem_keys_contract sound cut.fst_mem hx hxv
        obtain ⟨p, hp, hle⟩ := ih (hkeys a ha) (hkeys b hb) (by rw [hmerge, hmerge]; exact hab)
        rw [sound.crossingIn_contract cut.fst_mem cut.snd_mem cut.ne hside] at hle
        exact ⟨p, List.mem_cons_of_mem _ hp, hle⟩
      · exact ⟨_, List.mem_cons_self, Extended.finite_le_finite.mpr (cut.least side hside)⟩

def mergersBefore (found : List (Vertex × Vertex × Extended)) (i : Nat) : List (Vertex × Vertex) :=
  (found.take i).map fun (u, w, _) => (u, w)

structure CutOf (h : Adjacency Extended) (mergers : List (Vertex × Vertex)) (v : Vertex)
    (x : Extended) : Prop where
  retiring : Retiring mergers
  stays : ∀ p ∈ mergers, p.2 ≠ v
  inside : v ∈ h.keys ∧ destination mergers v = v
  outside : ∃ b ∈ h.keys, destination mergers b ≠ v
  within : ∀ a, destination mergers a = v → a ∈ h.keys
  weight : x = .finite
    (crossingIn h.weight (fun a => decide (destination mergers a = v)) h.vertices)

/-- The cut of a phase as one of the first graph. -/
theorem Contracts.cutOf {h : Adjacency Extended} {found : List (Vertex × Vertex × Extended)}
    (hf : Contracts h found) {i : Nat} {u v : Vertex} {x : Extended}
    (hi : found[i]? = some (u, v, x)) : CutOf h (mergersBefore found i) v x := by
  induction hf generalizing i with
  | done => simp at hi
  | @phase h u' v' q rest sound cut further ih =>
      cases i with
      | zero =>
          rw [List.getElem?_cons_zero, Option.some.injEq, Prod.mk.injEq, Prod.mk.injEq] at hi
          obtain ⟨rfl, rfl, rfl⟩ := hi
          refine ⟨List.Pairwise.nil, by simp [mergersBefore], ⟨cut.snd_mem, rfl⟩,
            ⟨u', cut.fst_mem, cut.ne⟩, fun a ha => ?_, ?_⟩
          · change a = v' at ha
            exact ha ▸ cut.snd_mem
          · exact congrArg _ cut.around.symm
      | succ i =>
          rw [List.getElem?_cons_succ] at hi
          have hcut := ih hi
          have hmergers : mergersBefore ((u', v', .finite q) :: rest) (i + 1) =
              (u', v') :: mergersBefore rest i := rfl
          have hkeys : ∀ a, a ∈ (h.contract u' v').keys → a ∈ h.keys ∧ a ≠ v' :=
            fun a ha => mem_keys_of_mem_contract sound cut.fst_mem ha
          rw [hmergers]
          refine ⟨List.pairwise_cons.mpr ⟨?_, hcut.retiring⟩, ?_, ?_, ?_, fun a ha => ?_, ?_⟩
          · intro p hp
            obtain ⟨r, hr, rfl⟩ := List.mem_map.mp hp
            obtain ⟨h₁, h₂⟩ := further.mem_keys (List.mem_of_mem_take hr)
            exact ⟨(hkeys _ h₁).2, (hkeys _ h₂).2⟩
          · intro p hp
            rcases List.mem_cons.mp hp with rfl | hp
            · exact (hkeys v hcut.inside.1).2.symm
            · exact hcut.stays p hp
          · obtain ⟨hv, hdest⟩ := hcut.inside
            exact ⟨(hkeys v hv).1, by rw [destination_cons, merge_of_ne (hkeys v hv).2, hdest]⟩
          · obtain ⟨b, hb, hdest⟩ := hcut.outside
            exact ⟨b, (hkeys b hb).1,
              by rw [destination_cons, merge_of_ne (hkeys b hb).2]; exact hdest⟩
          · rw [destination_cons] at ha
            by_cases hav : a = v'
            · exact hav ▸ cut.snd_mem
            · rw [merge_of_ne hav] at ha
              exact (hkeys a (hcut.within a ha)).1
          · -- The cut does not separate the two vertices of the first merger.
            have hboth : destination ((u', v') :: mergersBefore rest i) u' =
                destination ((u', v') :: mergersBefore rest i) v' := by
              rw [destination_cons, destination_cons, merge_self, merge_of_ne cut.ne]
            rw [hcut.weight, ← sound.crossingIn_contract cut.fst_mem cut.snd_mem cut.ne
              (by simp only [hboth])]
            congr 1
            apply crossingIn_congr (fun _ _ _ _ _ => rfl)
            intro a ha
            rw [destination_cons, merge_of_ne (hkeys a (mem_vertices.mp ha)).2]

/-! ### The best phase -/

theorem Contracts.weight_finite {h : Adjacency Extended}
    {found : List (Vertex × Vertex × Extended)} (hf : Contracts h found)
    {p : Vertex × Vertex × Extended} (hp : p ∈ found) : ∃ q : Rat, p.2.2 = .finite q := by
  induction hf with
  | done => cases hp
  | phase _ _ _ ih =>
      rcases List.mem_cons.mp hp with rfl | hp
      · exact ⟨_, rfl⟩
      · exact ih hp

/-- The best phase is at most as heavy as any, and is one of the phases or the one found before. -/
theorem bestPhase_spec {ps : List (Vertex × Vertex × Extended)} {i k : Nat} {best value : Extended}
    {found : Option Nat} (hps : ∀ p ∈ ps, ∃ q : Rat, p.2.2 = .finite q) (hbest : best ≠ .undefined)
    (h : bestPhase i best found ps = some (value, k)) :
    value ≤ best ∧ (∀ p ∈ ps, value ≤ p.2.2) ∧
      ((found = some k ∧ value = best) ∨ ∃ j p, k = i + j ∧ ps[j]? = some p ∧ p.2.2 = value) := by
  induction ps generalizing i best found with
  | nil =>
      obtain ⟨k', hk', heq⟩ := Option.map_eq_some_iff.mp h
      obtain ⟨rfl, rfl⟩ := Prod.mk.inj heq
      exact ⟨Extended.le_refl hbest, by simp, Or.inl ⟨hk', rfl⟩⟩
  | cons p rest ih =>
      obtain ⟨u, v, x⟩ := p
      obtain ⟨q, hq⟩ := hps _ List.mem_cons_self
      change x = .finite q at hq
      have hx : x ≠ .undefined := by simp [hq]
      have hrest := fun p hp => hps p (List.mem_cons_of_mem _ hp)
      rw [bestPhase] at h
      split at h
      · rename_i hlt
        obtain ⟨hle, hall, hfrom⟩ := ih hrest hx h
        refine ⟨Extended.le_trans hle (Extended.le_of_lt hlt), ?_, Or.inr ?_⟩
        · intro p hp
          rcases List.mem_cons.mp hp with rfl | hp
          · exact hle
          · exact hall p hp
        · rcases hfrom with ⟨hk, hvalue⟩ | ⟨j, p, hk, hj, hvalue⟩
          · exact ⟨0, (u, v, x), by rw [← Option.some.inj hk, add_zero], rfl, hvalue.symm⟩
          · exact ⟨j + 1, p, by omega, hj, hvalue⟩
      · rename_i hlt
        obtain ⟨hle, hall, hfrom⟩ := ih hrest hbest h
        refine ⟨hle, ?_, hfrom.imp_right ?_⟩
        · intro p hp
          rcases List.mem_cons.mp hp with rfl | hp
          · exact Extended.le_trans hle ((Extended.not_lt hx hbest).mp hlt)
          · exact hall p hp
        · rintro ⟨j, p, hk, hj, hvalue⟩
          exact ⟨j + 1, p, by omega, hj, hvalue⟩

theorem bestPhase_ne_none {ps : List (Vertex × Vertex × Extended)} {i : Nat} {best : Extended}
    {found : Option Nat} (hps : ∀ p ∈ ps, ∃ q : Rat, p.2.2 = .finite q)
    (h : found ≠ none ∨ (best = .infinity ∧ ps ≠ [])) : bestPhase i best found ps ≠ none := by
  induction ps generalizing i best found with
  | nil => simpa [bestPhase] using h
  | cons p rest ih =>
      obtain ⟨u, v, x⟩ := p
      obtain ⟨q, hq⟩ := hps _ List.mem_cons_self
      change x = .finite q at hq
      have hrest := fun p hp => hps p (List.mem_cons_of_mem _ hp)
      rw [bestPhase]
      split
      · exact ih hrest (Or.inl (by simp))
      · rename_i hlt
        apply ih hrest
        rcases h with h | ⟨rfl, -⟩
        · exact Or.inl h
        · simp [hq] at hlt

/-- The contraction finds a minimum cut: one of its sides and the weight that crosses. -/
theorem globalCut_spec {links : List (Link Extended)} (hsimple : Link.Simple links)
    (hweighted : Link.Weighted links) (hc : (ofLinks links).Connected)
    (hsize : 2 ≤ (ofLinks links).keys.length) :
    ∃ side : VertexSet,
      globalCut links = .ok (.finite (Link.crossing links fun a => decide (a ∈ side)), side) ∧
      (∀ a ∈ side, a ∈ (ofLinks links).keys) ∧ (∃ a, a ∈ side) ∧
      (∃ b ∈ (ofLinks links).keys, b ∉ side) ∧
      ∀ side' : Vertex → Bool, ∀ a ∈ (ofLinks links).keys, ∀ b ∈ (ofLinks links).keys,
        side' a ≠ side' b →
          Link.crossing links (fun a => decide (a ∈ side)) ≤ Link.crossing links side' := by
  have hh := sound_ofLinks hsimple hweighted
  have hlength : (ofLinks links).size = (ofLinks links).keys.length := by
    simp [Mapping.size, Mapping.keys]
  have hf : Contracts (ofLinks links) (phases ((ofLinks links).size - 1) (ofLinks links)) :=
    contracts_phases hh hc (by omega)
  have hfinite := fun p hp => hf.weight_finite (p := p) hp
  generalize hfound : phases ((ofLinks links).size - 1) (ofLinks links) = found at hf hfinite
  have hne : found ≠ [] := by
    rintro rfl
    cases hf
    omega
  have hsome : bestPhase 0 .infinity none found ≠ none :=
    bestPhase_ne_none hfinite (Or.inr ⟨rfl, hne⟩)
  obtain ⟨⟨value, i⟩, hbest⟩ := Option.ne_none_iff_exists'.mp hsome
  obtain ⟨-, hleast, hfrom⟩ := bestPhase_spec hfinite (by simp) hbest
  rcases hfrom with ⟨hnone, -⟩ | ⟨j, ⟨u, v, x⟩, hij, hj, hvalue⟩
  · cases hnone
  · rw [Nat.zero_add] at hij
    subst hij
    change x = value at hvalue
    subst hvalue
    have hcut := hf.cutOf hj
    have hmem : ∀ a, a ∈ mergedInto (mergersBefore found i) v ↔
        destination (mergersBefore found i) a = v := fun a =>
      mem_mergedInto hcut.retiring hcut.stays
    have hcrossing : x = .finite (Link.crossing links
        fun a => decide (a ∈ mergedInto (mergersBefore found i) v)) := by
      rw [hcut.weight, crossingIn_ofLinks hsimple]
      simp only [hmem]
    refine ⟨mergedInto (mergersBefore found i) v, ?_, ?_, ⟨v, (hmem v).mpr hcut.inside.2⟩, ?_, ?_⟩
    · unfold globalCut
      simp only [hfound, Extended.scalar_infinity, hbest, hj]
      rw [← hcrossing]
      rfl
    · intro a ha
      exact hcut.within a ((hmem a).mp ha)
    · obtain ⟨b, hb, hdest⟩ := hcut.outside
      exact ⟨b, hb, fun hin => hdest ((hmem b).mp hin)⟩
    · intro side' a ha b hb hab
      obtain ⟨p, hp, hle⟩ := hf.exists_le side' ha hb hab
      have := Extended.le_trans (hleast p hp) hle
      rw [hcrossing, crossingIn_ofLinks hsimple] at this
      exact Extended.finite_le_finite.mp this

end TourSearch.MinCut
