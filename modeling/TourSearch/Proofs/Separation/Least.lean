import TourSearch.Separator
import TourSearch.Proofs.MinCut.Contraction
import Mathlib

/-!
The violated cut of least value. On a connected graph it comes from the contraction; otherwise it is
the first component, which nothing leaves. Either way no proper set of vertices is crossed by less.
-/

namespace TourSearch

open Numeric MinCut

structure SortedSet.IsProper (side : VertexSet) (vertices : List Vertex) : Prop where
  inside : ∃ v, v ∈ side
  subset : ∀ v ∈ side, v ∈ vertices
  outside : ∃ v ∈ vertices, v ∉ side

/-- The value that crosses a set of vertices: edge values above the precision count, when one end of
the edge lies in the set and the other does not. -/
def EdgeValues.leaving (kind : GraphKind) (values : EdgeValues Extended) (side : VertexSet) : Rat :=
  values.crossing kind fun v => decide (v ∈ side)

namespace CutGraph

variable {c : CutGraph Extended} {g : Graph}

theorem IsOf.vertices_eq (h : c.IsOf g) (hg : g.WellFormed) : c.vertices = g.vertices := by
  rw [vertices, h.skeleton_eq, skeleton_vertices hg]

theorem IsOf.wellFormed (h : c.IsOf g) : c.skeleton.WellFormed := by
  rw [h.skeleton_eq]
  exact skeleton_wellFormed g

theorem IsOf.undirected (h : c.IsOf g) : c.skeleton.kind.isDirected = false := by
  rw [h.skeleton_eq]
  exact skeleton_undirected g

theorem IsOf.joined_of_mem_links (h : c.IsOf g) {link : Link Extended} (hlink : link ∈ c.links) :
    c.skeleton.Joined link.tail link.head :=
  h.exists_link.mp ⟨link, hlink, by simp [Link.joins]⟩

/-- The links of a connected graph reach every vertex. -/
theorem IsOf.mem_keys_ofLinks (h : c.IsOf g) (hconnected : c.isConnected = true)
    (hsize : 2 ≤ c.vertices.length) {v : Vertex} :
    v ∈ (Adjacency.ofLinks c.links).keys ↔ v ∈ c.vertices := by
  rw [Adjacency.mem_keys_ofLinks]
  constructor
  · rintro ⟨link, hlink, rfl | rfl⟩
    · exact (h.wellFormed.mem_of_joined (h.joined_of_mem_links hlink)).1
    · exact (h.wellFormed.mem_of_joined (h.joined_of_mem_links hlink)).2
  · intro hv
    obtain ⟨w, hw, hwv⟩ : ∃ w ∈ c.vertices, w ≠ v := by
      by_contra hnone
      push Not at hnone
      have hle := h.wellFormed.nodup.length_le_of_subset
        (show c.vertices ⊆ [v] from fun x hx => List.mem_singleton.mpr (hnone x hx))
      change c.vertices.length ≤ 1 at hle
      omega
    obtain ⟨a, b, hjoined, hside⟩ := h.wellFormed.exists_joined_of_isConnected hconnected
      (fun x => decide (x = v)) hv hw (by simpa using hwv)
    obtain ⟨link, hlink, hjoins⟩ := h.exists_link.mpr hjoined
    have hends : a = v ∨ b = v := by
      by_contra hnone
      rw [not_or] at hnone
      exact hside (by simp [hnone.1, hnone.2])
    refine ⟨link, hlink, ?_⟩
    rcases Link.joins_iff.mp hjoins with heq | heq <;> obtain ⟨h₁, h₂⟩ := Prod.mk.inj heq
    · rcases hends with rfl | rfl
      · exact Or.inl h₁.symm
      · exact Or.inr h₂.symm
    · rcases hends with rfl | rfl
      · exact Or.inr h₂.symm
      · exact Or.inl h₁.symm

theorem IsOf.connected_ofLinks (h : c.IsOf g) (hg : g.WellFormed)
    (hconnected : c.isConnected = true) (hsize : 2 ≤ c.vertices.length) :
    (Adjacency.ofLinks c.links).Connected := by
  rintro side ⟨a, ha, b, hb, hab⟩
  rw [h.mem_keys_ofLinks hconnected hsize] at ha hb
  obtain ⟨u, v, hjoined, hside⟩ :=
    h.wellFormed.exists_joined_of_isConnected hconnected side ha hb hab
  obtain ⟨link, hlink, hjoins⟩ := h.exists_link.mpr hjoined
  refine ⟨u, v, ?_, hside⟩
  rw [(Adjacency.look_ofLinks (h.simple hg)).mpr ⟨link, hlink, hjoins, rfl⟩]
  simp

end CutGraph

namespace Separator

variable {c : CutGraph Extended} {g : Graph}

structure IsLeast (c : CutGraph Extended) (side : VertexSet) : Prop where
  proper : side.IsProper c.vertices
  least : ∀ s : VertexSet, s.IsProper c.vertices →
    Link.crossing c.links (fun v => decide (v ∈ side)) ≤
      Link.crossing c.links fun v => decide (v ∈ s)

theorem leastCut_of_connected (h : c.IsOf g) (hg : g.WellFormed) (hweighted : Link.Weighted c.links)
    (hsize : 2 ≤ c.vertices.length) (hconnected : c.isConnected = true) :
    ∃ side, leastCut c = .ok (.finite (Link.crossing c.links fun v => decide (v ∈ side)), side) ∧
      IsLeast c side := by
  have hkeys := fun v => h.mem_keys_ofLinks hconnected hsize (v := v)
  have hlength : 2 ≤ (Adjacency.ofLinks c.links).keys.length :=
    hsize.trans (h.wellFormed.nodup.length_le_of_subset fun v hv => (hkeys v).mpr hv)
  obtain ⟨side, hcut, hsubset, hinside, ⟨b, hb, hbside⟩, hleast⟩ := globalCut_spec (h.simple hg)
    hweighted (h.connected_ofLinks hg hconnected hsize) hlength
  refine ⟨side, by rw [leastCut, if_pos hconnected, hcut],
    ⟨hinside, fun v hv => (hkeys v).mp (hsubset v hv), ⟨b, (hkeys b).mp hb, hbside⟩⟩, ?_⟩
  rintro s ⟨⟨x, hx⟩, hsub, y, hy, hys⟩
  exact hleast (fun v => decide (v ∈ s)) x ((hkeys x).mpr (hsub x hx)) y ((hkeys y).mpr hy)
    (by simp [hx, hys])

theorem leastCut_of_not_connected (h : c.IsOf g) (hweighted : Link.Weighted c.links)
    (hsize : 2 ≤ c.vertices.length) (hconnected : ¬c.isConnected = true) :
    ∃ side, leastCut c = .ok (.finite (Link.crossing c.links fun v => decide (v ∈ side)), side) ∧
      IsLeast c side := by
  cases hvertices : c.skeleton.vertices with
  | nil => simp [CutGraph.vertices, hvertices] at hsize
  | cons v rest =>
      have hv : v ∈ c.skeleton.vertices := by simp [hvertices]
      have hmem := fun w => h.wellFormed.mem_component hv (v := w)
      obtain ⟨w, hw, hwv⟩ : ∃ w ∈ rest, w ∉ c.skeleton.component v := by
        by_contra hnone
        push Not at hnone
        exact hconnected ((Graph.isConnected_iff hvertices).mpr hnone)
      -- Both ends of a link lie in the component, or none.
      have hzero : Link.crossing c.links (fun x => decide (x ∈ c.skeleton.component v)) = 0 := by
        apply List.sum_eq_zero
        intro x hx
        obtain ⟨link, hlink, rfl⟩ := List.mem_map.mp hx
        have hjoined := h.joined_of_mem_links hlink
        have hsame : link.tail ∈ c.skeleton.component v ↔ link.head ∈ c.skeleton.component v := by
          rw [hmem, hmem]
          exact ⟨fun hr => hr.tail hjoined, fun hr => hr.tail (hjoined.symm h.undirected)⟩
        simp [Link.splits, hsame]
      refine ⟨c.skeleton.component v, ?_, ⟨⟨v, (hmem v).mpr .refl⟩, fun x hx => ?_, w, ?_, hwv⟩, ?_⟩
      · obtain ⟨tail, htail⟩ := List.head?_eq_some_iff.mp (Graph.components_head hvertices)
        rw [leastCut, if_neg hconnected, CutGraph.components, htail, hzero]
        rfl
      · have hreaches := (hmem x).mp hx
        cases hreaches with
        | refl => exact hv
        | tail _ hjoined => exact (h.wellFormed.mem_of_joined hjoined).2
      · rw [CutGraph.vertices, hvertices]
        exact List.mem_cons_of_mem v hw
      · intro s _
        rw [hzero]
        exact hweighted.crossing_nonneg _

theorem leastCut_spec (h : c.IsOf g) (hg : g.WellFormed) (hweighted : Link.Weighted c.links)
    (hsize : 2 ≤ c.vertices.length) :
    ∃ side, leastCut c = .ok (.finite (Link.crossing c.links fun v => decide (v ∈ side)), side) ∧
      IsLeast c side := by
  by_cases hconnected : c.isConnected = true
  · exact leastCut_of_connected h hg hweighted hsize hconnected
  · exact leastCut_of_not_connected h hweighted hsize hconnected

theorem violationThreshold_eq :
    (violationThreshold : Extended) = .finite (2 - 1 / 1000000) := by
  rw [violationThreshold, Extended.scalar_two, Extended.precision_eq, Extended.finite_sub_finite]

/-- What separation of one cut answers for a graph whose proper sets are crossed by `w`: nothing
when no set is crossed by less than the threshold, and otherwise a set crossed by least. -/
structure Answers (vertices : List Vertex) (w : VertexSet → Rat) (result : Option (Cut Extended)) :
    Prop where
  none_iff : result = none ↔ vertices.length < 2 ∨
    ∀ s : VertexSet, s.IsProper vertices → 2 - 1 / 1000000 ≤ w s
  some_least : ∀ cut, result = some cut → cut.side.IsProper vertices ∧
    cut.value = .finite (w cut.side) ∧ ∀ s : VertexSet, s.IsProper vertices → w cut.side ≤ w s

theorem violatedLeast_spec (h : c.IsOf g) (hg : g.WellFormed) (hweighted : Link.Weighted c.links) :
    ∃ result, violatedLeast c = .ok result ∧
      Answers c.vertices (fun s => Link.crossing c.links fun v => decide (v ∈ s)) result := by
  by_cases hsize : c.vertexCount < 2
  · exact ⟨none, by rw [violatedLeast, if_pos hsize], ⟨iff_of_true rfl (Or.inl hsize), by simp⟩⟩
  · obtain ⟨side, hcut, hleast⟩ := leastCut_spec h hg hweighted (Nat.le_of_not_lt hsize)
    obtain ⟨x, hx⟩ := hleast.proper.inside
    have hne : side.members ≠ [] := List.ne_nil_of_mem hx
    have hmake : ∀ value : Extended, Cut.make side value = .ok ⟨side, value, hne⟩ := fun value =>
      dif_neg hne
    by_cases hlt : Link.crossing c.links (fun v => decide (v ∈ side)) < 2 - 1 / 1000000
    · refine ⟨some ⟨side, .finite (Link.crossing c.links fun v => decide (v ∈ side)), hne⟩, ?_, ?_,
        ?_⟩
      · rw [violatedLeast, if_neg hsize, hcut]
        show (if _ < violationThreshold then _ else _) = _
        rw [violationThreshold_eq, if_pos (Extended.finite_lt_finite.mpr hlt)]
        show (Cut.make side _ >>= _) = _
        rw [hmake]
        rfl
      · simp only [reduceCtorEq, false_iff, not_or]
        exact ⟨hsize, fun hall => absurd (hall side hleast.proper) (not_le.mpr hlt)⟩
      · rintro cut heq
        rw [← Option.some.inj heq]
        exact ⟨hleast.proper, rfl, hleast.least⟩
    · refine ⟨none, ?_, ?_, by simp⟩
      · rw [violatedLeast, if_neg hsize, hcut]
        show (if _ < violationThreshold then _ else _) = _
        rw [violationThreshold_eq, if_neg (fun h => hlt (Extended.finite_lt_finite.mp h))]
        rfl
      · exact iff_of_true rfl
          (Or.inr fun s hs => (not_lt.mp hlt).trans (hleast.least s hs))

/-- One cut of a graph and finite values that its working graph accepts. -/
theorem single_spec (hg : g.WellFormed) {s : Separator Extended} (hs : s.graph.IsOf g)
    {values : EdgeValues Extended} (hfinite : values.Finite)
    (hok : (s.graph.refresh values).1 = .ok ()) :
    ∃ result, (s.single values).1 = .ok result ∧
      Answers g.vertices (values.leaving g.kind) result := by
  obtain ⟨hweighted, hcrossing⟩ := hs.refresh_crossing hg hfinite hok
  have hof := hs.refresh values
  obtain ⟨result, hresult, hanswers⟩ := violatedLeast_spec hof hg hweighted
  simp only [hcrossing] at hanswers
  rw [hof.vertices_eq hg] at hanswers
  refine ⟨result, ?_, hanswers⟩
  show ((s.graph.refresh values).1 >>= fun _ => violatedLeast (s.graph.refresh values).2) = _
  rw [hok]
  exact hresult

/-- Separation of one cut. For any graph and any finite values that its working graph accepts,
there is no answer exactly if the graph has less than two vertices or no proper set is crossed by
less than the threshold; else the answer is a proper set crossed by least, with its value. -/
theorem single_least_cut (kind : GraphKind) (vs : List Vertex)
    (edges : List (Vertex × Vertex × Option Vertex)) (s : Separator Extended)
    (hs : s.graph.IsOf (Graph.build kind vs edges)) (values : EdgeValues Extended)
    (hfinite : values.Finite) (hok : (s.graph.refresh values).1 = .ok ()) :
    ∃ result, (s.single values).1 = .ok result ∧
      (s.single values).2.graph.IsOf (Graph.build kind vs edges) ∧
      Answers (Graph.build kind vs edges).vertices (values.leaving kind) result := by
  obtain ⟨result, hresult, hanswers⟩ :=
    single_spec (Graph.wellFormed_build kind vs edges) hs hfinite hok
  rw [Graph.build_kind] at hanswers
  exact ⟨result, hresult, hs.refresh values, hanswers⟩

/-- Two pairs of parallel and opposite edges, joined by one light edge. -/
theorem single_least_cut_bridge :
    let edges : List (Vertex × Vertex × Option Vertex) :=
      [(.int 1, .int 2, none), (.int 1, .int 2, none), (.int 2, .int 3, none),
        (.int 3, .int 4, none), (.int 4, .int 3, none), (.int 4, .int 4, none)]
    let values : EdgeValues Extended :=
      ⟨[([.int 1, .int 2, .int 0], .finite 1), ([.int 1, .int 2, .int 1], .finite 1),
        ([.int 2, .int 3, .int 0], .finite (1 / 2)), ([.int 3, .int 4, .int 0], .finite (3 / 2)),
        ([.int 4, .int 3, .int 0], .finite 1), ([.int 4, .int 4, .int 0], .finite (-3))]⟩
    let s : Separator Extended := ofGraph (Graph.build .multiDirected [] edges) .dinitz
    ∃ cut, (s.single values).1 = .ok (some cut) ∧
      cut.value = .finite (values.leaving .multiDirected cut.side) ∧
      values.leaving .multiDirected cut.side ≤ 1 / 2 := by
  intro edges values s
  have hfinite : values.Finite := by
    intro entry hentry
    simp only [values, List.mem_cons, List.not_mem_nil, or_false] at hentry
    rcases hentry with rfl | rfl | rfl | rfl | rfl | rfl <;> exact ⟨_, rfl⟩
  have hok : (s.graph.refresh values).1 = .ok () := by decide +kernel
  obtain ⟨result, hresult, -, hanswers⟩ := single_least_cut .multiDirected [] edges s
    (CutGraph.isOf_ofGraph _) values hfinite hok
  let pair : VertexSet := SortedSet.ofList [.int 1, .int 2]
  have hproper : pair.IsProper (Graph.build .multiDirected [] edges).vertices :=
    ⟨⟨.int 1, by decide⟩, by decide +kernel, ⟨.int 3, by decide +kernel, by decide⟩⟩
  have hvalue : values.leaving .multiDirected pair = 1 / 2 := by decide +kernel
  cases result with
  | none =>
      rcases hanswers.none_iff.mp rfl with hfew | hall
      · exact absurd hfew (by decide +kernel)
      · have := hall pair hproper
        rw [hvalue] at this
        norm_num at this
  | some cut =>
      obtain ⟨-, hcut, hleast⟩ := hanswers.some_least cut rfl
      exact ⟨cut, hresult, hcut, hvalue ▸ hleast pair hproper⟩

end Separator

end TourSearch
