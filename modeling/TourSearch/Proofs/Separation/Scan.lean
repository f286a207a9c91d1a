import TourSearch.Proofs.MinCut.Terminal
import TourSearch.Proofs.Separation.Least
import TourSearch.Proofs.Separation.Shortlist
import Mathlib

/-!
Separation of several cuts. A proper set or the rest of the vertices separates the first vertex from
some sink, so the minimum cuts of the sinks undercut every violated set (`scan_spec`). Both ways to
choose among them return the first of these cuts, in their own order (`several_spec`). Separation in
any mode therefore returns violated cuts only, and none only if there are none
(`Run.separated_spec`); all modes agree about that, and on the least value
(`several_agree_with_single`).
-/

namespace TourSearch

open Numeric

namespace Separator

/-! ### Violated cuts -/

def IsViolated (vertices : List Vertex) (w : VertexSet → Rat) (cut : Cut Extended) : Prop :=
  cut.side.IsProper vertices ∧ cut.value = .finite (w cut.side) ∧ w cut.side < 2 - 1 / 1000000

/-- Cuts that are violated, and nothing only if no proper set is crossed by less than the
threshold. -/
structure Separates (vertices : List Vertex) (w : VertexSet → Rat) (cuts : List (Cut Extended)) :
    Prop where
  violated : ∀ cut ∈ cuts, IsViolated vertices w cut
  complete : cuts = [] → ∀ s : VertexSet, s.IsProper vertices → 2 - 1 / 1000000 ≤ w s

theorem Answers.separates {vertices : List Vertex} {w : VertexSet → Rat}
    {result : Option (Cut Extended)} (h : Answers vertices w result) :
    Separates vertices w result.toList := by
  cases result with
  | none =>
      refine ⟨by simp, fun _ s hs => ?_⟩
      rcases h.none_iff.mp rfl with hfew | hall
      · obtain ⟨⟨x, hx⟩, hsub, y, hy, hys⟩ := hs
        have hxy : x ≠ y := fun heq => hys (heq ▸ hx)
        have htwo : [x, y].Nodup := by simp [hxy]
        have hsubset : [x, y] ⊆ vertices := by simp [hsub x hx, hy]
        have hlength := htwo.length_le_of_subset hsubset
        simp only [List.length_cons, List.length_nil] at hlength
        omega
      · exact hall s hs
  | some cut =>
      refine ⟨fun c hc => ?_, by simp⟩
      rw [Option.toList_some, List.mem_singleton] at hc
      obtain ⟨hproper, hvalue, hleast⟩ := h.some_least cut rfl
      have hsome : ¬(vertices.length < 2 ∨ ∀ s : VertexSet, s.IsProper vertices →
          2 - 1 / 1000000 ≤ w s) := fun hnone => by simpa using h.none_iff.mpr hnone
      push Not at hsome
      obtain ⟨-, s, hs, hlt⟩ := hsome
      exact hc ▸ ⟨hproper, hvalue, (hleast s hs).trans_lt hlt⟩

variable {c : CutGraph Extended} {g : Graph}

theorem sound_flowGraph (h : c.IsOf g) (hg : g.WellFormed) (hweighted : Link.Weighted c.links) :
    c.flowGraph.Sound where
  nodup := h.wellFormed.nodup
  weighted := hweighted
  ends := fun link hlink =>
    have hends := h.wellFormed.mem_of_joined (h.joined_of_mem_links hlink)
    ⟨hends.1, hends.2, (h.simple hg).loopless link hlink⟩

/-- The cut of a sink, if it is violated: it holds the source, and is crossed by no more than any
other set between the two. -/
theorem sinkCut_spec (h : c.IsOf g) (hg : g.WellFormed) (hweighted : Link.Weighted c.links)
    {source sink : Vertex} (hsource : source ∈ c.vertices) (hsink : sink ∈ c.vertices)
    (hne : source ≠ sink) (method : FlowMethod) :
    ∃ result, sinkCut ((MinCutStrategy.ofMethod method).prepare c.flowGraph) source sink =
        .ok result ∧
      (∀ cut, result = some cut → source ∈ cut.side ∧ IsViolated c.vertices
        (fun s => Link.crossing c.links fun v => decide (v ∈ s)) cut) ∧
      ∀ A : Vertex → Bool, A source = true → A sink = false →
        Link.crossing c.links A < 2 - 1 / 1000000 → ∃ cut, result = some cut ∧
          Link.crossing c.links (fun v => decide (v ∈ cut.side)) ≤ Link.crossing c.links A := by
  obtain ⟨side, hcut, hin, hout, hsub, hleast⟩ :=
    (sound_flowGraph h hg hweighted).minCut_spec hsource hsink hne
  have hmembers : side.members ≠ [] := List.ne_nil_of_mem hin
  have hsinkCut : sinkCut ((MinCutStrategy.ofMethod method).prepare c.flowGraph) source sink =
      if Extended.finite (Link.crossing c.links fun v => decide (v ∈ side)) <
        violationThreshold then
        .ok (some ⟨side, .finite (Link.crossing c.links fun v => decide (v ∈ side)), hmembers⟩)
      else .ok none := by
    show (c.flowGraph.minCut source sink >>= _) = _
    rw [hcut]
    show (if _ < violationThreshold then Cut.make side _ >>= _ else _) = _
    rw [Cut.make, dif_neg hmembers]
    rfl
  rw [hsinkCut, violationThreshold_eq]
  simp only [Extended.finite_lt_finite]
  split
  · rename_i hlt
    refine ⟨_, rfl, fun cut hsome => ?_, fun A hA hA' _ => ⟨_, rfl, hleast A hA hA'⟩⟩
    rw [← Option.some.inj hsome]
    exact ⟨hin, ⟨⟨source, hin⟩, hsub, sink, hsink, hout⟩, rfl, hlt⟩
  · rename_i hge
    exact ⟨none, rfl, by simp, fun A hA hA' hlt =>
      absurd ((hleast A hA hA').trans_lt hlt) hge⟩

/-- The other side is crossed by the same. -/
theorem crossing_not (links : List (Link Extended)) (A : Vertex → Bool) :
    Link.crossing links (fun v => !A v) = Link.crossing links A := by
  have hsplits : ∀ link : Link Extended, link.splits (fun v => !A v) = link.splits A := by
    intro link
    simp [Link.splits]
  simp only [Link.crossing, hsplits]

/-- A proper set or the rest of the vertices separates the first vertex from another one. -/
theorem exists_sink (links : List (Link Extended)) {source : Vertex} {sinks : List Vertex}
    {s : VertexSet} (hs : s.IsProper (source :: sinks)) :
    ∃ v ∈ sinks, ∃ A : Vertex → Bool, A source = true ∧ A v = false ∧
      Link.crossing links A = Link.crossing links fun v => decide (v ∈ s) := by
  obtain ⟨⟨a, ha⟩, hsub, b, hb, hbs⟩ := hs
  by_cases hsource : source ∈ s
  · have hbsinks : b ∈ sinks := by
      rcases List.mem_cons.mp hb with rfl | hb
      · exact absurd hsource hbs
      · exact hb
    exact ⟨b, hbsinks, _, by simpa using hsource, by simpa using hbs, rfl⟩
  · -- The rest of the vertices holds the source, so a vertex of the set is the sink.
    have hasinks : a ∈ sinks := by
      rcases List.mem_cons.mp (hsub a ha) with rfl | ha'
      · exact absurd ha hsource
      · exact ha'
    exact ⟨a, hasinks, _, by simpa using hsource, by simpa using ha, crossing_not links _⟩

/-- Different violated cuts that hold the first vertex. Every violated set is crossed by no less
than one of them. -/
structure SinkCuts (vertices : List Vertex) (w : VertexSet → Rat) (cuts : List (Cut Extended)) :
    Prop where
  nodup : (cuts.map (·.side)).Nodup
  violated : ∀ cut ∈ cuts, IsViolated vertices w cut
  source : ∀ cut ∈ cuts, ∀ v, vertices.head? = some v → v ∈ cut.side
  undercut : ∀ s : VertexSet, s.IsProper vertices → w s < 2 - 1 / 1000000 →
    ∃ cut ∈ cuts, w cut.side ≤ w s

theorem sinkCuts_nil {vertices : List Vertex} {w : VertexSet → Rat}
    (hfew : ∀ s : VertexSet, ¬s.IsProper vertices) : SinkCuts vertices w [] :=
  ⟨List.nodup_nil, by simp, by simp, fun s hs => absurd hs (hfew s)⟩

/-- The different violated cuts of all sinks. -/
theorem sinkCuts_distinct {w : VertexSet → Rat} {source : Vertex} {sinks : List Vertex}
    {cutOf : Vertex → Option (Cut Extended)}
    (hcuts : ∀ v ∈ sinks, ∀ cut, cutOf v = some cut →
      source ∈ cut.side ∧ IsViolated (source :: sinks) w cut)
    (hleast : ∀ s : VertexSet, s.IsProper (source :: sinks) → w s < 2 - 1 / 1000000 →
      ∃ v ∈ sinks, ∃ cut, cutOf v = some cut ∧ w cut.side ≤ w s) :
    SinkCuts (source :: sinks) w (distinct (sinks.filterMap cutOf)) := by
  have hfrom : ∀ cut ∈ distinct (sinks.filterMap cutOf),
      source ∈ cut.side ∧ IsViolated (source :: sinks) w cut := by
    intro cut hcut
    obtain ⟨v, hv, hsome⟩ := List.mem_filterMap.mp (mem_of_mem_distinct hcut)
    exact hcuts v hv cut hsome
  refine ⟨nodup_sides_distinct _, fun cut hcut => (hfrom cut hcut).2, fun cut hcut v hv => ?_,
    fun s hs hlt => ?_⟩
  · rw [List.head?_cons, Option.some.injEq] at hv
    exact hv ▸ (hfrom cut hcut).1
  · obtain ⟨v, hv, cut, hsome, hle⟩ := hleast s hs hlt
    obtain ⟨kept, hkept, hside⟩ := List.mem_map.mp
      (side_mem_distinct (List.mem_filterMap.mpr ⟨v, hv, hsome⟩))
    exact ⟨kept, hkept, hside ▸ hle⟩

/-- A scan visits the violated cuts of all sinks, whatever it does with them. -/
theorem scan_spec {s : Separator Extended} (hs : s.graph.IsOf g) (hg : g.WellFormed)
    {values : EdgeValues Extended} (hok : (s.graph.refresh values).1 = .ok ())
    (hweighted : Link.Weighted (s.graph.refresh values).2.links) :
    ∃ found, Valued (fun side =>
        Link.crossing (s.graph.refresh values).2.links fun v => decide (v ∈ side)) found ∧
      SinkCuts (s.graph.refresh values).2.vertices (fun side =>
        Link.crossing (s.graph.refresh values).2.links fun v => decide (v ∈ side))
        (distinct found) ∧
      ∀ {β : Type} (first : β) (visit : β → Cut Extended → ForInStep β),
        (s.scan values first visit).1 = .ok (visitAll visit first found) := by
  have h := hs.refresh values
  simp only [scan_of_ok hok]
  generalize (s.graph.refresh values).2 = c at h hweighted
  have hnodup : c.vertices.Nodup := h.wellFormed.nodup
  match hvertices : c.vertices with
  | [] =>
      refine ⟨[], fun _ hcut => absurd hcut List.not_mem_nil,
        sinkCuts_nil fun s hs => by simpa using hs.outside, fun first visit => ?_⟩
      simp [visitSinks, hvertices, visitAll]
  | [source] =>
      refine ⟨[], fun _ hcut => absurd hcut List.not_mem_nil, sinkCuts_nil fun s hs => ?_,
        fun first visit => ?_⟩
      · obtain ⟨⟨a, ha⟩, hsub, b, hb, hbs⟩ := hs
        rw [List.mem_singleton.mp hb, ← List.mem_singleton.mp (hsub a ha)] at hbs
        exact hbs ha
      · simp [visitSinks, hvertices, visitAll]
  | source :: sink :: rest =>
      rw [hvertices] at hnodup
      have hsource : source ∈ c.vertices := by simp [hvertices]
      have hspec := fun v (hv : v ∈ sink :: rest) => sinkCut_spec h hg hweighted hsource
        (hvertices ▸ List.mem_cons_of_mem _ hv)
        (fun heq => (List.nodup_cons.mp hnodup).1 (heq ▸ hv)) s.method
      rw [hvertices] at hspec
      -- The sinks are few, so a function can name the cut of each of them.
      choose! cutOf hcutOf hcuts hleast using hspec
      refine ⟨(sink :: rest).filterMap cutOf, fun cut hcut => ?_,
        sinkCuts_distinct hcuts fun side hside hlt => ?_, fun first visit => ?_⟩
      · obtain ⟨v, hv, hsome⟩ := List.mem_filterMap.mp hcut
        exact (hcuts v hv cut hsome).2.2.1
      · obtain ⟨v, hv, A, hA, hA', heq⟩ := exists_sink c.links hside
        obtain ⟨cut, hsome, hle⟩ := hleast v hv A hA hA' (heq ▸ hlt)
        exact ⟨v, hv, cut, hsome, heq ▸ hle⟩
      · simp only [visitSinks, hvertices]
        exact visitCuts_eq hcutOf visit first

theorem SinkCuts.mono {vertices : List Vertex} {w : VertexSet → Rat}
    {cuts cuts' : List (Cut Extended)} (h : SinkCuts vertices w cuts) (hperm : cuts'.Perm cuts) :
    SinkCuts vertices w cuts' := by
  refine ⟨(hperm.map _).nodup_iff.mpr h.nodup, fun cut hcut =>
    h.violated cut (hperm.mem_iff.mp hcut),
    fun cut hcut => h.source cut (hperm.mem_iff.mp hcut), fun s hs hlt => ?_⟩
  obtain ⟨cut, hcut, hle⟩ := h.undercut s hs hlt
  exact ⟨cut, hperm.mem_iff.mpr hcut, hle⟩

/-- The first of these cuts, of which there is one if there is any. -/
theorem SinkCuts.separates_take {vertices : List Vertex} {w : VertexSet → Rat}
    {cuts : List (Cut Extended)} (h : SinkCuts vertices w cuts) {limit : Nat} (hpos : 0 < limit) :
    Separates vertices w (cuts.take limit) := by
  refine ⟨fun cut hcut => h.violated cut (List.mem_of_mem_take hcut), fun hnil s hs => ?_⟩
  by_contra hlt
  obtain ⟨cut, hcut, -⟩ := h.undercut s hs (not_le.mp hlt)
  rcases List.take_eq_nil_iff.mp hnil with hzero | hempty
  · omega
  · rw [hempty] at hcut
    cases hcut

/-! ### All modes -/

/-- Several cuts of a graph and finite values that its working graph accepts. Every scan that
nothing ends goes over the same cuts. -/
theorem several_spec (hg : g.WellFormed) {s : Separator Extended} (hs : s.graph.IsOf g)
    {values : EdgeValues Extended} (hfinite : values.Finite)
    (hok : (s.graph.refresh values).1 = .ok ()) {maxCuts : Int} (hpos : 0 < maxCuts) :
    ∃ found, Valued (values.leaving g.kind) found ∧
      SinkCuts g.vertices (values.leaving g.kind) (distinct found) ∧
      (∀ {β : Type} (first : β) (next : β → Cut Extended → β),
        (s.scan values first fun b cut => .yield (next b cut)).1 = .ok (found.foldl next first)) ∧
      (s.any values maxCuts).1 = .ok ((distinct found).take maxCuts.toNat) ∧
      (s.mostViolated values maxCuts).1 =
        .ok ((ranked (distinct found)).take maxCuts.toNat) := by
  obtain ⟨hweighted, hcrossing⟩ := hs.refresh_crossing hg hfinite hok
  obtain ⟨found, hvalued, hcuts, hscan⟩ := scan_spec hs hg hok hweighted
  simp only [hcrossing] at hvalued hcuts
  rw [(hs.refresh values).vertices_eq hg] at hcuts
  have hlimit : 0 < maxCuts.toNat := by omega
  refine ⟨found, hvalued, hcuts, fun first next => ?_, ?_, ?_⟩
  · rw [hscan, visitAll_yield]
  · rw [any, several_of_pos _ _ hpos, hscan, visitAll_gather hlimit]
    rfl
  · rw [mostViolated, several_of_pos _ _ hpos, hscan, visitAll_yield]
    exact congrArg Except.ok (Shortlist.best_after hvalued hlimit)

end Separator

theorem EdgeValues.leaving_diff {g : Graph} (hg : g.WellFormed) {c : CutGraph Extended}
    (hc : c.IsOf g) {values : EdgeValues Extended} (hfinite : values.Finite)
    (hok : (c.refresh values).1 = .ok ()) {all : VertexSet} (hall : ∀ v ∈ g.vertices, v ∈ all)
    (side : VertexSet) : values.leaving g.kind (all.diff side) = values.leaving g.kind side := by
  have hcrossing := (hc.refresh_crossing hg hfinite hok).2
  have hof := hc.refresh values
  have hother : ∀ v ∈ g.vertices, decide (v ∈ all.diff side) = !decide (v ∈ side) := by
    intro v hv
    simp [SortedSet.mem_diff, hall v hv]
  rw [EdgeValues.leaving, EdgeValues.leaving, ← hcrossing, ← hcrossing, ← Separator.crossing_not]
  -- The two ends of a link are vertices, and both change sides.
  refine congrArg List.sum (List.map_congr_left fun link hlink => ?_)
  obtain ⟨htail, hhead⟩ := hof.wellFormed.mem_of_joined (hof.joined_of_mem_links hlink)
  have hvertices : (c.refresh values).2.skeleton.vertices = g.vertices := hof.vertices_eq hg
  rw [hvertices] at htail hhead
  rw [Link.splits, Link.splits, hother _ htail, hother _ hhead, Bool.not_not, Bool.not_not]

theorem Run.separated_spec {config : SearchConfig Extended} (hcuts : 1 ≤ config.maxCutsPerRound)
    {g : Graph} (hg : g.WellFormed) {s : Separator Extended} (hs : s.graph.IsOf g)
    {values : EdgeValues Extended} (hfinite : values.Finite)
    (hok : (s.graph.refresh values).1 = .ok ()) :
    ∃ cuts, (Run.separated config s values).1 = .ok cuts ∧
      Separator.Separates g.vertices (values.leaving g.kind) cuts := by
  obtain ⟨result, hresult, hanswers⟩ := Separator.single_spec hg hs hfinite hok
  obtain ⟨found, -, hsinks, -, hany, hmost⟩ :=
    Separator.several_spec hg hs hfinite hok (Int.lt_of_lt_of_le Int.zero_lt_one hcuts)
  have hpos : 0 < config.maxCutsPerRound.toNat := by omega
  unfold Run.separated
  cases config.cutMode with
  | single =>
      refine ⟨result.toList, ?_, hanswers.separates⟩
      show ((s.single values).1).map Option.toList = _
      rw [hresult]
      rfl
  | any => exact ⟨_, hany, hsinks.separates_take hpos⟩
  | mostViolated =>
      exact ⟨_, hmost, (hsinks.mono (Separator.perm_ranked _)).separates_take hpos⟩

namespace Separator

/-- A list of cuts beside the answer for one cut: no more cuts than wanted, all different and
violated, each with the first vertex, and none exactly if there is no answer. -/
structure Agrees (vertices : List Vertex) (w : VertexSet → Rat) (maxCuts : Int)
    (single : Option (Cut Extended)) (cuts : List (Cut Extended)) : Prop where
  few : (cuts.length : Int) ≤ maxCuts
  nodup : (cuts.map (·.side)).Nodup
  violated : ∀ cut ∈ cuts, IsViolated vertices w cut
  source : ∀ cut ∈ cuts, ∀ v, vertices.head? = some v → v ∈ cut.side
  empty_iff : cuts = [] ↔ single = none

theorem SinkCuts.agrees {vertices : List Vertex} {w : VertexSet → Rat}
    {cuts : List (Cut Extended)} (h : SinkCuts vertices w cuts) {maxCuts : Int} (hpos : 0 < maxCuts)
    {single : Option (Cut Extended)} (hsingle : Answers vertices w single) :
    Agrees vertices w maxCuts single (cuts.take maxCuts.toNat) := by
  have hseparates : Separates vertices w (cuts.take maxCuts.toNat) :=
    h.separates_take (by omega)
  refine ⟨?_, h.nodup.sublist ((List.take_sublist _ _).map _), hseparates.violated,
    fun cut hcut => h.source cut (List.mem_of_mem_take hcut), fun hnil => ?_, fun hnone => ?_⟩
  · rw [List.length_take]
    omega
  · exact hsingle.none_iff.mpr (Or.inr (hseparates.complete hnil))
  · rw [hnone] at hsingle
    refine List.eq_nil_iff_forall_not_mem.mpr fun cut hcut => ?_
    obtain ⟨hproper, -, hlt⟩ := hseparates.violated cut hcut
    exact absurd (hsingle.separates.complete rfl _ hproper) (not_le.mpr hlt)

/-- The first cut by value is crossed by least. -/
theorem SinkCuts.head_ranked {vertices : List Vertex} {w : VertexSet → Rat}
    {cuts : List (Cut Extended)} (h : SinkCuts vertices w cuts) {limit : Nat} {first : Cut Extended}
    (hfirst : ((ranked cuts).take limit).head? = some first) {s : VertexSet}
    (hs : s.IsProper vertices) : w first.side ≤ w s := by
  obtain ⟨tail, htail⟩ := List.head?_eq_some_iff.mp hfirst
  have hmem : first ∈ ranked cuts := List.mem_of_mem_take (htail ▸ List.mem_cons_self)
  obtain ⟨rest, hrest⟩ : ∃ rest, ranked cuts = first :: rest := by
    refine ⟨tail ++ (ranked cuts).drop limit, ?_⟩
    rw [← List.cons_append, ← htail, List.take_append_drop]
  have hsorted := ascending_ranked fun cut hcut => (h.violated cut hcut).2.1
  rw [hrest] at hsorted
  -- A set that is not violated is crossed by more than any of the cuts.
  by_cases hlt : w s < 2 - 1 / 1000000
  · obtain ⟨cut, hcut, hle⟩ := h.undercut s hs hlt
    rw [← (perm_ranked cuts).mem_iff, hrest] at hcut
    rcases List.mem_cons.mp hcut with rfl | hcut
    · exact hle
    · exact ((List.pairwise_cons.mp hsorted).1 cut hcut).trans hle
  · have hviolated := h.violated first ((perm_ranked cuts).mem_iff.mp hmem)
    exact hviolated.2.2.le.trans (not_lt.mp hlt)

/-- Separation of several cuts, of the first ones found or of the most violated ones. For any graph
and any finite values that its working graph accepts, both lists agree with the separation of one
cut, and the first of the most violated cuts has its value, which is the least. -/
theorem several_agree_with_single (kind : GraphKind) (vs : List Vertex)
    (edges : List (Vertex × Vertex × Option Vertex)) (s : Separator Extended)
    (hs : s.graph.IsOf (Graph.build kind vs edges)) (values : EdgeValues Extended)
    (hfinite : values.Finite) (hok : (s.graph.refresh values).1 = .ok ()) (maxCuts : Int)
    (hpos : 1 ≤ maxCuts) :
    ∃ single any most, (s.single values).1 = .ok single ∧ (s.any values maxCuts).1 = .ok any ∧
      (s.mostViolated values maxCuts).1 = .ok most ∧
      Agrees (Graph.build kind vs edges).vertices (values.leaving kind) maxCuts single any ∧
      Agrees (Graph.build kind vs edges).vertices (values.leaving kind) maxCuts single most ∧
      ∀ first, most.head? = some first → ∃ cut, single = some cut ∧ first.value = cut.value ∧
        ∀ side : VertexSet, side.IsProper (Graph.build kind vs edges).vertices →
          values.leaving kind first.side ≤ values.leaving kind side := by
  have hg := Graph.wellFormed_build kind vs edges
  have hkind := Graph.build_kind kind vs edges
  obtain ⟨single, hsingle, hanswers⟩ := single_spec hg hs hfinite hok
  obtain ⟨found, -, hcuts, -, hany, hmost⟩ := several_spec hg hs hfinite hok hpos
  rw [hkind] at hanswers hcuts
  have hagrees := (hcuts.mono (perm_ranked _)).agrees hpos hanswers
  refine ⟨single, _, _, hsingle, hany, hmost, hcuts.agrees hpos hanswers, hagrees,
    fun first hfirst => ?_⟩
  have hleast : ∀ side : VertexSet, side.IsProper (Graph.build kind vs edges).vertices →
      values.leaving kind first.side ≤ values.leaving kind side :=
    fun _ hside => hcuts.head_ranked hfirst hside
  have hmem := List.mem_of_head? hfirst
  obtain ⟨hproper, hvalue, -⟩ := hagrees.violated first hmem
  cases hsome : single with
  | none =>
      rw [hagrees.empty_iff.mpr hsome] at hmem
      cases hmem
  | some cut =>
      obtain ⟨hproper', hvalue', hleast'⟩ := hanswers.some_least cut hsome
      refine ⟨cut, rfl, ?_, hleast⟩
      rw [hvalue, hvalue', le_antisymm (hleast _ hproper') (hleast' _ hproper)]

/-- A path whose second edge is lighter: the first cut found is not the most violated one. -/
theorem several_agree_with_single_path :
    let edges : List (Vertex × Vertex × Option Vertex) :=
      [(.int 0, .int 1, none), (.int 1, .int 2, none)]
    let values : EdgeValues Extended :=
      ⟨[([.int 0, .int 1], .finite 1), ([.int 2, .int 1], .finite (1 / 2))]⟩
    let s : Separator Extended := ofGraph (Graph.build .simple [] edges) .edmondsKarp
    values.Finite ∧ (s.graph.refresh values).1 = .ok () ∧
      ∃ cut found first, (s.single values).1 = .ok (some cut) ∧
        (s.any values 1).1 = .ok [found] ∧ (s.mostViolated values 1).1 = .ok [first] ∧
        .int 0 ∈ found.side ∧ .int 0 ∈ first.side ∧ first.value = cut.value ∧
        values.leaving .simple first.side ≤ 1 / 2 := by
  intro edges values s
  have hfinite : values.Finite := by
    intro entry hentry
    simp only [values, List.mem_cons, List.not_mem_nil, or_false] at hentry
    rcases hentry with rfl | rfl <;> exact ⟨_, rfl⟩
  have hok : (s.graph.refresh values).1 = .ok () := by decide +kernel
  refine ⟨hfinite, hok, ?_⟩
  obtain ⟨single, any, most, hsingle, hany, hmost, hagrees, hagrees', hfirst⟩ :=
    several_agree_with_single .simple [] edges s (CutGraph.isOf_ofGraph _) values hfinite hok 1
      (by decide)
  have hsome : (s.single values).1.toOption.join.isSome = true := by decide +kernel
  rw [hsingle] at hsome
  obtain ⟨cut, rfl⟩ := Option.isSome_iff_exists.mp hsome
  have hone : ∀ {cuts : List (Cut Extended)},
      Agrees (Graph.build .simple [] edges).vertices (values.leaving .simple) 1 (some cut) cuts →
      ∃ c, cuts = [c] ∧ .int 0 ∈ c.side := by
    intro cuts h
    have hne : cuts ≠ [] := fun hnil => by simpa using h.empty_iff.mp hnil
    have hfew := h.few
    obtain ⟨c, hc⟩ := List.length_eq_one_iff.mp
      (show cuts.length = 1 by have := List.length_pos_iff.mpr hne; omega)
    exact ⟨c, hc, h.source c (by simp [hc]) (.int 0) (by decide +kernel)⟩
  obtain ⟨found, rfl, hfound⟩ := hone hagrees
  obtain ⟨first, rfl, hin⟩ := hone hagrees'
  obtain ⟨_, heq, hvalue, hleast⟩ := hfirst first rfl
  let pair : VertexSet := SortedSet.ofList [.int 0, .int 1]
  have hproper : pair.IsProper (Graph.build .simple [] edges).vertices :=
    ⟨⟨.int 0, by decide⟩, by decide +kernel, ⟨.int 2, by decide +kernel, by decide⟩⟩
  have hpair : values.leaving .simple pair = 1 / 2 := by decide +kernel
  exact ⟨cut, found, first, hsingle, hany, hmost, hfound, hin, Option.some.inj heq ▸ hvalue,
    hpair ▸ hleast pair hproper⟩

end Separator

end TourSearch
