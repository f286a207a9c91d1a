import TourSearch.Proofs.Search.Invariant
import TourSearch.Proofs.Search.Step
import Mathlib

/-!
One node of a search. Every round of cuts ends with an answer that the relaxation justifies
(`Rounds.justified`), and every way to close the node keeps the tours covered (`close_spec`).
-/

namespace TourSearch

open Numeric

namespace Search

variable {σ : Type} {S : Setup σ} {view : σ → Restrictions} {F : Set Tour}
  {run run' : Run Extended Move σ}

/-! ### The relaxation and its cuts -/

/-- What an answer says about the tours under the restrictions. Integral values are accepted unless
they cannot improve the upper bound. -/
def Justified (S : Setup σ) (F : Set Tour) (r : Restrictions) (upper : Extended) :
    Answer Extended → Prop
  | .infeasible => ∀ T ∈ F, ¬r.Allows T.edges
  | .solved z values =>
      (z ≠ .undefined → ∀ T ∈ F, r.Allows T.edges → z ≤ .finite T.cost) ∧
        (upper - S.config.gapTolerance ≤ z ∨
          (values.isIntegral S.config.integralityTolerance = .ok true → Accepted S z values))

theorem Rounds.justified (hP : Partners S view) (hV : Valid S view F) {rounds : Int}
    {answer : Option (Answer Extended)} (hmeets : Meets S run.world)
    (hlike : run.separator.Like S.separator)
    (hrounds : Rounds S.problem S.config rounds run run' answer) :
    Meets S run'.world ∧ view run'.world = view run.world ∧
      ∀ a ∈ answer, Justified S F (view run.world) run.tree.stats.upper a := by
  have hfound {values : EdgeValues Extended} := Run.separated_congr S.config hlike values
  cases hrounds with
  | infeasible solved =>
      refine ⟨hmeets.solve solved, hP.solve_view solved, fun a ha => ?_⟩
      obtain rfl := Option.mem_some_iff.mp ha
      exact hV.infeasible hmeets solved
  | hopeless solved reached =>
      refine ⟨hmeets.solve solved, hP.solve_view solved, fun a ha => ?_⟩
      obtain rfl := Option.mem_some_iff.mp ha
      exact ⟨hV.bound hmeets solved, Or.inl reached⟩
  | uncut solved found =>
      refine ⟨hmeets.solve solved, hP.solve_view solved, fun a ha => ?_⟩
      obtain rfl := Option.mem_some_iff.mp ha
      exact ⟨hV.bound hmeets solved, Or.inr fun hintegral =>
        ⟨⟨_, _, hmeets, solved⟩, hintegral, hfound ▸ found⟩⟩
  | last solved _ fractional =>
      refine ⟨hmeets.solve solved, hP.solve_view solved, fun a ha => ?_⟩
      obtain rfl := Option.mem_some_iff.mp ha
      refine ⟨hV.bound hmeets solved, Or.inr fun hintegral => ?_⟩
      rw [fractional] at hintegral
      cases hintegral
  | again solved found _ _ added =>
      refine ⟨hmeets.addCuts solved (hfound ▸ found) added, ?_, fun a ha => by cases ha⟩
      rw [hP.addCuts_view added, hP.solve_view solved]

/-! ### Closing a node -/

variable {tau gap : Rat} {h : Handle}

theorem Standing.reseat (hs : Standing S view F run) {t : Tree Extended Move}
    {values : EdgeValues Extended} (hrecords : t.records = run.tree.records)
    (hnext : t.nextId = run.tree.nextId) (hincumbent : Incumbent S F t values) :
    Standing S view F { run with tree := t, incumbentValues := values } := by
  have hnode : ∀ k, t.node k = run.tree.node k := fun k => by rw [Tree.node, Tree.node, hrecords]
  refine ⟨hs.grown.congr (by rw [hrecords]) hnext fun k => ?_,
    hs.fits.of_tree (by rw [hrecords]) fun k _ hk => ?_, hs.settled, hs.listeners, ?_, hs.applied,
    hs.meets, hs.like, hincumbent⟩
  · rw [hnode]
    exact ⟨rfl, rfl, hs.grown.bounded k, id⟩
  · rw [hnode] at hk ⊢
    exact ⟨hk, rfl⟩
  · obtain ⟨k, hk, hhistory⟩ := hs.onTree
    exact ⟨k, by rw [hrecords]; exact hk, by rw [hnode]; exact hhistory⟩

theorem Standing.mark (hs : Standing S view F run)
    (hprocessing : (run.tree.node h).status = .processing) {status : NodeStatus}
    (hstatus : status ≠ .pending) :
    Standing S view F { run with tree := run.tree.markProcessed h status } := by
  have hmodified := hs.modify (Or.inr hprocessing) (f := fun n => { n with status }) rfl rfl
    (hs.grown.bounded h) hstatus
  exact hmodified.reseat rfl rfl
    (hmodified.incumbent.congr rfl (run.tree.upper_markProcessed h status) fun _ hk => ⟨hk, rfl⟩)

/-- What happens at a node that is not pending does not concern the tours in the queue. -/
theorem Covered.elsewhere {t t' : Tree Extended Move} {q : OpenQueue Extended} {T : Tour}
    (hcovered : Covered tau t q T) (hprocessing : (t.node h).status = .processing)
    (hupper : t'.stats.upper = t.stats.upper) (hne : t.stats.upper ≠ .undefined)
    (hsame : ∀ k, k ≠ h → t'.node k = t.node k) : Covered tau t' q T := by
  refine hcovered.mono (by rw [hupper]; exact Extended.le_refl hne)
    fun k hwaits hpending hholds => ?_
  have hkh : k ≠ h := by
    rintro rfl
    rw [Node.isPending_iff, hprocessing] at hpending
    cases hpending
  unfold Holds
  rw [hsame k hkh]
  exact Or.inl ⟨hwaits, hpending, hholds⟩

/-- A node that holds no tour below the upper bound can be closed. -/
theorem At.close (ha : At S view F tau h run) {status : NodeStatus} (hstatus : status ≠ .pending)
    (hnone : ∀ T ∈ F, Holds run.tree T h → run.tree.stats.upper - .finite tau ≤ .finite T.cost) :
    Between S view F tau { run with tree := run.tree.markProcessed h status } := by
  refine ⟨ha.toStanding.mark ha.processing hstatus, fun T hT => ?_⟩
  have hupper := run.tree.upper_markProcessed h status
  rcases ha.covered T hT with hcovered | hholds
  · exact hcovered.elsewhere ha.processing hupper ha.incumbent.upper_ne_undefined fun k hk =>
      run.tree.node_modify_of_ne hk _
  · exact Or.inr (by rw [hupper]; exact hnone T hT hholds)

theorem larger_ne_undefined {a b : Extended} (ha : a ≠ .undefined) :
    Scalar.larger a b ≠ .undefined := by
  unfold Scalar.larger
  split
  · rename_i hlt
    rintro rfl
    simp at hlt
  · exact ha

theorem le_larger {a b : Extended} (ha : a ≠ .undefined) (hb : b ≠ .undefined) :
    b ≤ Scalar.larger a b := by
  unfold Scalar.larger
  split
  · exact Extended.le_refl hb
  · rename_i hlt
    exact (Extended.not_lt ha hb).mp hlt

theorem larger_le {a b c : Extended} (ha : a ≤ c) (hb : b ≠ .undefined → b ≤ c) :
    Scalar.larger a b ≤ c := by
  unfold Scalar.larger
  split
  · rename_i hlt
    apply hb
    rintro rfl
    simp at hlt
  · exact ha

/-- A bound that the relaxation proves leaves every tour where it is. -/
theorem At.rebound (ha : At S view F tau h run) {z : Extended}
    (hbound : ∀ T ∈ F, Holds run.tree T h → z ≠ .undefined → z ≤ .finite T.cost) :
    At S view F tau h { run with tree := run.tree.modify h (solvedNode z) } := by
  have hnode := run.tree.node_modify_self ha.known (solvedNode z)
  refine ⟨ha.toStanding.modify (Or.inr ha.processing) rfl rfl
    (larger_ne_undefined (ha.grown.bounded h)) (by simp [solvedNode, ha.processing]), ?_, ?_,
    fun T hT => ?_⟩
  · simpa using ha.known
  · rw [hnode]
    exact ha.processing
  · rcases ha.covered T hT with hcovered | hholds
    · exact Or.inl (hcovered.elsewhere ha.processing rfl ha.incumbent.upper_ne_undefined fun k hk =>
        run.tree.node_modify_of_ne hk _)
    · refine Or.inr ⟨?_, ?_⟩
      · show T.Obeys ((run.tree.modify h (solvedNode z)).node h).decisions
        rw [hnode]
        exact hholds.1
      · show ((run.tree.modify h (solvedNode z)).node h).lowerBound ≤ _
        rw [hnode]
        exact larger_le hholds.2 (hbound T hT hholds)

theorem Standing.prune (hs : Standing S view F run) {t : Tree Extended Move}
    (hp : Tree.Pruned run.tree t) :
    Standing S view F { run with tree := t, queue := (run.queue.prune t).2 } := by
  refine ⟨hp.grown hs.grown, (OpenQueue.entries_prune _ (hp.fits hs.fits)).1, hs.settled,
    hs.listeners, ?_, hs.applied, hs.meets, hs.like, 
    hs.incumbent.congr hp.incumbent_eq hp.upper_eq fun k hk => ?_⟩
  · obtain ⟨k, hk, hhistory⟩ := hs.onTree
    refine ⟨k, by rw [hp.size_eq]; exact hk, hhistory.trans ?_⟩
    rcases hp.nodes k with heq | ⟨-, -, heq⟩ <;> rw [heq]
    rfl
  · rcases hp.nodes k with heq | ⟨hpending, -, -⟩
    · rw [heq]
      exact ⟨hk, rfl⟩
    · rw [Node.isPending_iff, hk] at hpending
      cases hpending

theorem Covered.prune {t t' : Tree Extended Move} {q : OpenQueue Extended} {T : Tour}
    (hcovered : Covered tau t q T) (hp : Tree.Pruned t t') (hfits : q.Fits t')
    (hne : t.stats.upper ≠ .undefined) (htau : 1 / 1000000 ≤ tau) :
    Covered tau t' (q.prune t').2 T := by
  refine hcovered.mono (by rw [hp.upper_eq]; exact Extended.le_refl hne)
    fun k hwaits hpending hholds => ?_
  rcases hp.nodes k with heq | ⟨-, hreaches, -⟩
  · left
    obtain ⟨e, he, rfl⟩ := hwaits
    refine ⟨⟨e, ?_, rfl⟩, by rw [heq]; exact hpending, by unfold Holds; rw [heq]; exact hholds⟩
    rw [(OpenQueue.entries_prune q hfits).2.mem_iff, List.mem_filter]
    exact ⟨he, by rw [heq]; exact hpending⟩
  · -- A tour in a pruned node costs at least its bound.
    right
    rw [hp.upper_eq]
    exact Extended.le_trans (Extended.sub_finite_anti hne htau)
      (Extended.le_trans hreaches hholds.2)

/-- A node whose value is the cost of a tour below the upper bound becomes the incumbent. -/
theorem At.accept (ha : At S view F tau h run) (htau : 1 / 1000000 ≤ tau) {T₀ : Tour} (hT₀ : T₀ ∈ F)
    {values : EdgeValues Extended} (haccepted : Accepted S (.finite T₀.cost) values)
    (hvalue : (run.tree.node h).lpValue = .finite T₀.cost)
    (hbound : .finite T₀.cost ≤ (run.tree.node h).lowerBound)
    (hbelow : .finite T₀.cost ≤ run.tree.stats.upper) :
    Between S view F tau { run with
      tree := (accepted run.tree h values).pruneByBound.2
      incumbentValues := values
      queue := (run.queue.prune (accepted run.tree h values).pruneByBound.2).2 } := by
  have hp := Tree.pruned_pruneByBound (accepted run.tree h values)
  have hnode := node_accepted_self ha.known values
  have hothers : ∀ k, k ≠ h → (accepted run.tree h values).node k = run.tree.node k :=
    fun k hk => node_accepted_of_ne hk values
  have hupper : (accepted run.tree h values).stats.upper = .finite T₀.cost := by
    show ((accepted run.tree h values).node h).lpValue = _
    rw [hnode]
    exact hvalue
  have hincumbent : Incumbent S F (accepted run.tree h values) values :=
    Or.inr ⟨h, T₀, hT₀, rfl, by rw [hnode], by rw [hnode]; exact hvalue, hupper, haccepted⟩
  -- First the record of the node, then its status, then the incumbent, then what it rules out.
  have hs₁ := ha.toStanding.modify (Or.inr ha.processing)
    (f := fun n => { n with isInteger := true, solution := values }) rfl rfl (ha.grown.bounded h)
    (by simp [ha.processing])
  have hs₂ := hs₁.mark (by rw [Tree.node_modify_self _ ha.known]; exact ha.processing)
    (show NodeStatus.integer ≠ .pending by simp)
  have hs₃ : Standing S view F
      { run with tree := accepted run.tree h values, incumbentValues := values } :=
    hs₂.reseat rfl rfl hincumbent
  have hs₄ := hs₃.prune hp
  refine ⟨⟨hs₄.grown, hs₄.fits, hs₄.settled, hs₄.listeners, hs₄.onTree, hs₄.applied, hs₄.meets,
    hs₄.like, hs₄.incumbent⟩, fun T hT => ?_⟩
  have hcovered : Covered tau (accepted run.tree h values) run.queue T := by
    rcases ha.covered T hT with hcovered | hholds
    · refine hcovered.mono (by rw [hupper]; exact hbelow) fun k hwaits hpending hk => ?_
      have hkh : k ≠ h := by
        rintro rfl
        rw [Node.isPending_iff, ha.processing] at hpending
        cases hpending
      left
      unfold Holds
      rw [hothers k hkh]
      exact ⟨hwaits, hpending, hk⟩
    · right
      rw [hupper, Extended.finite_sub_finite]
      have hle := Extended.le_trans hbound hholds.2
      rw [Extended.finite_le_finite] at hle ⊢
      linarith
  exact hcovered.prune hp (hp.fits hs₃.fits) (by simp [hupper]) htau

theorem splits_of_fractional {p : Problem Extended Move σ} {tolerance : Extended}
    (hbranching : BranchesOnEdges p tolerance) {values : EdgeValues Extended}
    (hintegral : values.isIntegral tolerance = .ok false) {n : Node Extended Move}
    {cs : List (Candidate Extended Move)} {w w' : σ}
    (hproposed : (p.candidates n values).Gives w cs w') :
    w' = w ∧ ∃ c, Candidate.best? cs = some c ∧ ∃ e x, (e, x) ∈ values.entries ∧
      Fractional tolerance x ∧
      c.decisions = [⟨2 * n.id.toNat, .fix e⟩, ⟨2 * n.id.toNat + 1, .remove e⟩] := by
  rw [Action.Gives, hbranching, Prod.mk.injEq] at hproposed
  obtain ⟨hcs, rfl⟩ := hproposed
  obtain ⟨hsplits, hsome⟩ := EdgeBranching.candidates_eq_ok hcs
  refine ⟨rfl, ?_⟩
  cases hbest : Candidate.best? cs with
  | none => exact absurd (Candidate.best?_eq_none_iff.mp hbest) (hsome (by simp) hintegral)
  | some c => exact ⟨c, rfl, hsplits c (Candidate.best?_mem hbest)⟩

/-- The children of a branched node. -/
theorem mem_children {t t' : Tree Extended Move} {parent : Nat} {ds : List (Decision Move)}
    {hs : List Handle} (hb : Tree.Branched t parent ds hs t') {k : Nat} (hk : k ∈ hs) :
    k < t'.records.size ∧ (t'.node k).isPending = true := by
  rw [hb.handles, List.mem_map] at hk
  obtain ⟨i, hi, rfl⟩ := hk
  rw [List.mem_range] at hi
  refine ⟨by rw [hb.size_eq]; exact Nat.add_lt_add_left hi _, ?_⟩
  rw [hb.new i _ (List.getElem?_eq_getElem hi)]
  rfl

/-- A search goes on with the children of a node in its queue. -/
theorem Standing.branch (hs : Standing S view F run) {parent : Nat} {ds : List (Decision Move)}
    {children : List Handle} {t' : Tree Extended Move}
    (hb : Tree.Branched run.tree parent ds children t')
    (hparent : parent < run.tree.records.size)
    (hprocessing : (run.tree.node parent).status = .processing)
    (hstamps : ∀ d ∈ ds, d.stamp / 2 = parent) (hid : Decision.Identified ds) :
    Standing S view F { run with tree := t', queue := run.queue.addAll t' children } := by
  have hgrown : t'.Grown := hb.grown hs.grown hparent (by simp [hprocessing]) hstamps hid
  have hfits : run.queue.Fits t' := by
    refine hs.fits.of_tree (by rw [hb.size_eq]; omega) fun k hk hpending => ?_
    by_cases hkp : k = parent
    · obtain ⟨_, hself⟩ := hb.self
      rw [hkp, hself, Node.isPending_iff] at hpending
      cases hpending
    · rw [hb.old k hk hkp] at hpending ⊢
      exact ⟨hpending, rfl⟩
  refine ⟨hgrown, hfits.addAll (fun k hk => (mem_children hb hk).1) fun k _ => hgrown.bounded k,
    hs.settled, hs.listeners, ?_, hs.applied, hs.meets, hs.like,
    hs.incumbent.congr hb.incumbent_eq hb.upper_eq fun k hk => ?_⟩
  · obtain ⟨k, hk, hhistory⟩ := hs.onTree
    refine ⟨k, by rw [hb.size_eq]; omega, hhistory.trans ?_⟩
    rcases hb.cases k with ⟨-, -, hsame, -⟩ | ⟨i, d, hki, -, -⟩ | ⟨hge, -⟩
    · exact hsame.symm
    · omega
    · rw [hb.size_eq] at hge
      omega
  · have hlt : k < run.tree.records.size := Tree.lt_of_status (by simp [hk])
    have hkp : k ≠ parent := by
      rintro rfl
      rw [hprocessing] at hk
      cases hk
    rw [hb.old k hlt hkp]
    exact ⟨hk, rfl⟩

/-- A tour that lies in a branched node and obeys one of the decisions lies in a child. -/
theorem Holds.child {t t' : Tree Extended Move} {parent : Nat} {ds : List (Decision Move)}
    {hs : List Handle} (hb : Tree.Branched t parent ds hs t') {T : Tour} (hT : Holds t T parent)
    {d : Decision Move} (hd : d ∈ ds) (hobeyed : d.move.Obeyed T.edges) :
    ∃ k ∈ hs, Holds t' T k := by
  obtain ⟨i, hi⟩ := List.mem_iff_getElem?.mp hd
  have hlength : i < ds.length := (List.getElem?_eq_some_iff.mp hi).1
  refine ⟨t.records.size + i, ?_, ?_⟩
  · rw [hb.handles]
    exact List.mem_map_of_mem (List.mem_range.mpr hlength)
  · unfold Holds
    rw [hb.new i d hi, Tree.decisions_childOf]
    refine ⟨fun d' hd' => ?_, hT.2⟩
    rcases List.mem_append.mp hd' with hd' | hd'
    · exact hT.1 d' hd'
    · exact List.mem_singleton.mp hd' ▸ hobeyed

/-- Branching a node on decisions of which every tour obeys one. -/
theorem At.branch (ha : At S view F tau h run) {ds : List (Decision Move)} {children : List Handle}
    {t' : Tree Extended Move} (hb : Tree.Branched run.tree h ds children t')
    (hstamps : ∀ d ∈ ds, d.stamp / 2 = h) (hid : Decision.Identified ds)
    (hsplit : ∀ T ∈ F, ∃ d ∈ ds, d.move.Obeyed T.edges) :
    Between S view F tau { run with tree := t', queue := run.queue.addAll t' children } := by
  have hpending := fun k hk => (mem_children hb (k := k) hk).2
  refine ⟨ha.toStanding.branch hb ha.known ha.processing hstamps hid, fun T hT => ?_⟩
  rcases ha.covered T hT with hcovered | hholds
  · refine hcovered.mono
      (by rw [hb.upper_eq]; exact Extended.le_refl ha.incumbent.upper_ne_undefined)
      fun k hwaits hk hkholds => Or.inl ⟨(OpenQueue.waits_addAll hpending).mpr (Or.inr hwaits), ?_⟩
    have hlt : k < run.tree.records.size := by
      obtain ⟨entry, hentry, rfl⟩ := hwaits
      exact ha.fits.known entry hentry
    have hkh : k ≠ h := by
      rintro rfl
      rw [Node.isPending_iff, ha.processing] at hk
      cases hk
    unfold Holds
    rw [hb.old k hlt hkh]
    exact ⟨hk, hkholds⟩
  · obtain ⟨d, hd, hobeyed⟩ := hsplit T hT
    obtain ⟨k, hk, hkholds⟩ := hholds.child hb hd hobeyed
    exact Or.inl ⟨k, (OpenQueue.waits_addAll hpending).mpr (Or.inl hk), hpending k hk, hkholds⟩

/-- Tours in the node where the trail stands are allowed by the restrictions. -/
theorem Standing.allows (hs : Standing S view F run)
    (hhere : run.trail.history = (run.tree.node h).decisions) {T : Tour}
    (hT : Holds run.tree T h) : (view run.world).Allows T.edges := by
  have hobeys : T.Obeys run.trail.history := hhere ▸ hT.1
  exact hobeys.allows (Restrictions.allows_empty T.edges) hs.applied

/-- The node at hand after it has been solved. -/
theorem At.solved (ha : At S view F tau h run)
    (hhere : run.trail.history = (run.tree.node h).decisions) {z : Extended}
    {values : EdgeValues Extended}
    (hjustified : Justified S F (view run.world) run.tree.stats.upper (.solved z values)) :
    At S view F tau h { run with tree := solvedTree run.tree h z } :=
  ha.rebound fun T hT hholds hz => hjustified.1 hz T hT (ha.toStanding.allows hhere hholds)

theorem lt_of_not_hopeless {μ : Type} {config : SearchConfig Extended} {t : Tree Extended μ}
    (hlt : h < t.records.size) (hbounded : (t.node h).lowerBound ≠ .undefined)
    (hupper : t.stats.upper ≠ .undefined) (hgap : config.gapTolerance = .finite gap) {z : Extended}
    (hbetter : ¬Hopeless config t h z) :
    Scalar.larger (t.node h).lowerBound z < t.stats.upper - .finite gap := by
  rw [Hopeless, solvedTree, Tree.node_modify_self _ hlt, Node.reaches_iff, hgap] at hbetter
  exact (Extended.not_le (Extended.sub_finite_ne_undefined hupper gap)
    (larger_ne_undefined hbounded)).mp hbetter

theorem At.lt_of_not_hopeless (ha : At S view F tau h run)
    (hgap : S.config.gapTolerance = .finite gap) {z : Extended}
    (hbetter : ¬Hopeless S.config run.tree h z) :
    Scalar.larger (run.tree.node h).lowerBound z < run.tree.stats.upper - .finite gap :=
  Search.lt_of_not_hopeless ha.known (ha.grown.bounded h) ha.incumbent.upper_ne_undefined hgap
    hbetter

theorem close_spec (hP : Partners S view) (hV : Valid S view F) (ha : At S view F tau h run)
    (hhere : run.trail.history = (run.tree.node h).decisions)
    (hgap : S.config.gapTolerance = .finite gap) (hnonneg : 0 ≤ gap) (hgapTau : gap ≤ tau)
    (htau : 1 / 1000000 ≤ tau) {answer : Answer Extended}
    (hjustified : Justified S F (view run.world) run.tree.stats.upper answer)
    (hgives : (Run.close S.problem S.config h answer).Gives run () run') :
    Between S view F tau run' := by
  have hne := ha.incumbent.upper_ne_undefined
  have hnode {z : Extended} := run.tree.node_modify_self ha.known (solvedNode z)
  cases closes_of_gives hgives with
  | infeasible =>
      exact ha.close (by simp) fun T hT hholds =>
        absurd (ha.toStanding.allows hhere hholds) (hjustified T hT)
  | hopeless reached =>
      rw [Hopeless, Node.reaches_iff, hgap] at reached
      exact (ha.solved hhere hjustified).close (by simp) fun T hT hholds => Extended.le_trans
        (Extended.sub_finite_anti hne hgapTau) (Extended.le_trans reached hholds.2)
  | @incumbent z values better integral =>
      have hbelow := ha.lt_of_not_hopeless hgap better
      rcases hjustified.2 with hreached | hcost
      · -- Such an answer would have made the node hopeless.
        rw [hgap] at hreached
        have hz := (Extended.ne_undefined_of_le hreached).2
        have hlt := Extended.lt_of_le_of_lt
          (Extended.le_trans hreached (le_larger (ha.grown.bounded h) hz)) hbelow
        exact absurd hlt Extended.not_lt_self
      · have haccepted := hcost integral
        have hsolved := ha.solved hhere hjustified
        obtain ⟨T₀, hT₀, rfl⟩ := hV.integral haccepted
        have hle := le_larger (ha.grown.bounded h) (b := .finite T₀.cost) (by simp)
        refine hsolved.accept htau hT₀ haccepted ?_ ?_ ?_
        · exact congrArg Node.lpValue hnode
        · exact (congrArg Node.lowerBound hnode) ▸ hle
        · exact Extended.le_trans hle (Extended.le_trans (Extended.le_of_lt hbelow)
            (Extended.sub_finite_le hne hnonneg))
  | givenUp _ fractional proposed none =>
      obtain ⟨-, c, hbest, -⟩ := splits_of_fractional hP.branching fractional proposed
      rw [none] at hbest
      cases hbest
  | branched _ fractional proposed best =>
      have hsolved := ha.solved hhere hjustified
      obtain ⟨rfl, c, hbest, e, -, -, -, hdecisions⟩ :=
        splits_of_fractional hP.branching fractional proposed
      obtain rfl := Option.some.inj (best.symm.trans hbest)
      rw [hsolved.grown.id_eq h hsolved.known, Int.toNat_natCast] at hdecisions
      rw [branched, hdecisions]
      refine hsolved.branch (Tree.branched_createChildren hsolved.known _) ?_ ?_ fun T _ => ?_
      · simp
        omega
      · simp [Decision.Identified]
      · -- A tour uses the edge or does not.
        by_cases huse : e.key ∈ T.edges
        · exact ⟨_, List.mem_cons_self, huse⟩
        · exact ⟨_, List.mem_cons_of_mem _ List.mem_cons_self, huse⟩

end Search

end TourSearch
