import TourSearch.Proofs.Action
import TourSearch.Proofs.Ancestry
import TourSearch.Proofs.Trail
import Mathlib

/-!
The distance between nodes. A node has two addresses: the ids above it, by which the tree finds
common ancestors, and the decisions that lead to it, by which the trail moves. When every node was
created with a decision of its own (`Tree.made`) the two agree: what two nodes share of their
decisions are the decisions of their common ancestor (`Rooted.commonPrefixLength_eq`). A move of the
trail from one node to another therefore goes up to the common ancestor and down from there, and
touches nothing else.
-/

namespace TourSearch

namespace Tree

variable {α μ : Type}

def Edit.decided : Edit α μ → List (Decision μ)
  | .createChild _ d => [d]
  | .createChildren _ ds => ds
  | .markProcessed .. | .pruneByBound | .setIncumbent _ | .setLower _ | .setUpper _ | .setStatus ..
  | .setBounds .. | .discard _ => []

variable [Scalar α] {t t' t'' : Tree α μ} {a b c h k parent : Nat}

def made (t : Tree α μ) : List (Decision μ) :=
  (List.range t.records.size).flatMap fun h => (t.node h).fresh

/-- Nodes have no other decisions than those that nodes were created with. -/
def Sourced (t : Tree α μ) : Prop := ∀ h, (t.node h).decisions ⊆ t.made

theorem sourced_initial : (initial : Tree α μ).Sourced := by
  intro h
  rw [node_initial]
  exact List.nil_subset _

/-! ### The decisions of a tree under edits -/

structure Enlarges (t t' : Tree α μ) (ds : List (Decision μ)) : Prop where
  size_le : t.records.size ≤ t'.records.size
  decisions_eq : ∀ k < t.records.size, (t'.node k).decisions = (t.node k).decisions
  made_eq : t'.made = t.made ++ ds
  sourced : t.Sourced → t'.Sourced

theorem Enlarges.trans {ds es : List (Decision μ)} (h₁ : Enlarges t t' ds)
    (h₂ : Enlarges t' t'' es) : Enlarges t t'' (ds ++ es) :=
  ⟨h₁.size_le.trans h₂.size_le,
    fun k hk => (h₂.decisions_eq k (hk.trans_le h₁.size_le)).trans (h₁.decisions_eq k hk),
    by rw [h₂.made_eq, h₁.made_eq, List.append_assoc], h₂.sourced ∘ h₁.sourced⟩

omit [Scalar α] in
theorem fresh_of_place {n n' : Node α μ} (heq : n'.place = n.place) : n'.fresh = n.fresh :=
  congrArg (fun p => p.1.2.2.2) heq

omit [Scalar α] in
theorem decisions_of_place {n n' : Node α μ} (heq : n'.place = n.place) :
    n'.decisions = n.decisions := Node.decisions_of_origin (congrArg Prod.fst heq)

/-- Nothing is added when all nodes keep their places. -/
theorem enlarges_of_place (hsize : t'.records.size = t.records.size)
    (hplace : ∀ k, (t'.node k).place = (t.node k).place) : Enlarges t t' [] := by
  have hmade : t'.made = t.made := by
    rw [made, made, hsize]
    exact List.flatMap_congr fun k _ => fresh_of_place (hplace k)
  refine ⟨hsize.ge, fun k _ => decisions_of_place (hplace k), hmade.trans (List.append_nil _).symm,
    fun hs h => ?_⟩
  rw [hmade, decisions_of_place (hplace h)]
  exact hs h

theorem SameArena.enlarges (hr : SameArena t t') : Enlarges t t' [] :=
  enlarges_of_place hr.size_eq fun k => (hr.node_eq k).1

theorem enlarges_createChild (hlt : parent < t.records.size) (d : Decision μ) :
    Enlarges t (t.createChild parent d).2 [d] := by
  have hold : ∀ k, k ≠ t.records.size →
      ((t.createChild parent d).2.node k).place = (t.node k).place := fun k hk =>
    place_createChild hlt d hk
  have hmade : (t.createChild parent d).2.made = t.made ++ [d] := by
    have hfresh : ∀ k ∈ List.range t.records.size,
        ((t.createChild parent d).2.node k).fresh = (t.node k).fresh := fun k hk =>
      fresh_of_place (hold k (Nat.ne_of_lt (List.mem_range.mp hk)))
    rw [made, size_createChild, List.range_succ, List.flatMap_append, List.flatMap_congr hfresh,
      List.flatMap_singleton, node_createChild_new hlt]
    rfl
  refine ⟨?_, fun k hk => decisions_of_place (hold k (Nat.ne_of_lt hk)), hmade, fun hs h => ?_⟩
  · rw [size_createChild]
    exact Nat.le_succ _
  · rw [hmade]
    by_cases hnew : h = t.records.size
    · rw [hnew, node_createChild_new hlt]
      exact List.append_subset.mpr ⟨List.subset_append_of_subset_left _ (hs parent),
        List.subset_append_right _ _⟩
    · rw [decisions_of_place (hold h hnew)]
      exact List.subset_append_of_subset_left _ (hs h)

theorem enlarges_createEach (hlt : parent < t.records.size) (ds : List (Decision μ)) :
    Enlarges t (t.createEach parent ds).2 ds := by
  induction ds generalizing t with
  | nil => exact enlarges_of_place rfl fun _ => rfl
  | cons d ds ih =>
      have hfirst := enlarges_createChild hlt d
      exact hfirst.trans (ih (hlt.trans_le hfirst.size_le))

theorem Rooted.enlarges_perform (ht : t.Rooted) {e : Edit α μ} (hp : t.Permits e) :
    Enlarges t (t.perform e).2 e.decided := by
  cases e with
  | createChild parent d => exact enlarges_createChild (ht.lt_size hp) d
  | createChildren parent ds =>
      have heach := enlarges_createEach (ht.lt_size hp) ds
      have hmarked := (sameArena_markProcessed (t.createEach parent ds).2 parent .branched).enlarges
      have hboth := heach.trans hmarked
      rwa [List.append_nil] at hboth
  | markProcessed h status => exact (t.sameArena_markProcessed h status).enlarges
  | pruneByBound => exact (t.sameArena_pruneEach t.arena.values).enlarges
  | setIncumbent | setLower | setUpper => exact enlarges_of_place rfl fun _ => rfl
  | setStatus h status =>
      exact (t.sameArena_modify h (f := fun n => { n with status }) fun _ => ⟨rfl, rfl⟩).enlarges
  | setBounds h lower upper value =>
      exact (t.sameArena_modify h (f := fun n =>
        { n with lowerBound := lower, upperBound := upper, lpValue := value })
        fun _ => ⟨rfl, rfl⟩).enlarges
  | discard h =>
      rcases ht.discard_cases hp with ⟨fault, hfail⟩ | ⟨-, -, k, -, -, -, hdone⟩
      · rw [Tree.perform, hfail]
        exact enlarges_of_place rfl fun _ => rfl
      · rw [Tree.perform, hdone]
        exact enlarges_of_place (size_modify _ _ _) (t.place_without h k)

/-! ### Decisions as addresses -/

/-- Every decision belongs to one node only. -/
theorem eq_of_fresh (hdistinct : (t.made.map Decision.stamp).Nodup) (hh : h < t.records.size)
    (hk : k < t.records.size) {d e : Decision μ} (hd : d ∈ (t.node h).fresh)
    (he : e ∈ (t.node k).fresh) (hstamp : d.stamp = e.stamp) : h = k := by
  rw [made, List.map_flatMap, List.nodup_flatMap] at hdistinct
  by_contra hne
  have hsymm : Std.Symm (Function.onFun List.Disjoint
      fun h => (t.node h).fresh.map Decision.stamp) := ⟨fun _ _ hxy => hxy.symm⟩
  have hdisjoint := hdistinct.2.forall (List.mem_range.mpr hh) (List.mem_range.mpr hk) hne
  exact hdisjoint (List.mem_map_of_mem hd) (hstamp ▸ List.mem_map_of_mem he)

namespace Rooted

theorem root_decisions (ht : t.Rooted) : (t.node root).decisions = [] :=
  Node.decisions_of_origin (n := Node.blank) (congrArg Prod.fst ht.root_place)

theorem exists_decision (ht : t.Rooted) (hin : t.InArena h) (hne : h ≠ root) :
    ∃ (k : Nat) (d : Decision μ), k < h ∧ t.InArena k ∧ t.lookup? (t.node h).parent = some k ∧
      (t.node h).depth = (t.node k).depth + 1 ∧ (t.node h).fresh = [d] ∧
      (t.node h).decisions = (t.node k).decisions ++ [d] := by
  obtain ⟨k, hk, hkin, hbegets⟩ := ht.of_child h hin hne
  obtain ⟨d, hfresh, hdecisions⟩ := hbegets.decisions_eq
  have hlookup : t.lookup? (t.node h).parent = some k := hbegets.parent_eq ▸ hkin
  exact ⟨k, d, hk, hkin, hlookup, hbegets.depth_eq, hfresh, hdecisions⟩

theorem length_decisions (ht : t.Rooted) (hin : t.InArena h) :
    ((t.node h).decisions.length : Int) = (t.node h).depth := by
  induction h using Nat.strong_induction_on with
  | _ h ih =>
      by_cases hroot : h = root
      · rw [hroot, ht.root_decisions, ht.root_depth]
        rfl
      · obtain ⟨k, d, hk, hkin, -, hdepth, -, hdecisions⟩ := ht.exists_decision hin hroot
        rw [hdecisions, List.length_append, hdepth, Nat.cast_add, ih k hk hkin]
        rfl

/-- The beginnings of the decisions of a node are the decisions of its ancestors. -/
theorem exists_above_at (ht : t.Rooted) (ha : t.InArena a) {n : Nat}
    (hn : n ≤ (t.node a).decisions.length) :
    ∃ c, t.InArena c ∧ t.Above c a ∧ (t.node c).decisions = (t.node a).decisions.take n := by
  induction a using Nat.strong_induction_on with
  | _ a ih =>
      rcases Nat.lt_or_eq_of_le hn with hlt | heq
      · have hroot : a ≠ root := by
          rintro rfl
          rw [ht.root_decisions] at hlt
          exact Nat.not_lt_zero _ hlt
        obtain ⟨k, d, hk, hkin, hlookup, -, -, hdecisions⟩ := ht.exists_decision ha hroot
        rw [hdecisions, List.length_append, List.length_singleton] at hlt
        have hle := Nat.le_of_lt_succ hlt
        obtain ⟨c, hc, hck, hcd⟩ := ih k hk hkin hle
        refine ⟨c, hc, hck.tail hlookup, ?_⟩
        rw [hcd, hdecisions, List.take_append_of_le_length hle]
      · exact ⟨a, ha, .refl, by rw [heq, List.take_length]⟩

theorem decisions_begin_of_above (ht : t.Rooted) (ha : t.InArena a) (hca : t.Above c a) :
    (t.node c).decisions <+: (t.node a).decisions := by
  induction hca with
  | refl => exact List.prefix_rfl
  | @tail k a _ hlookup ih =>
      have hroot : a ≠ root := by
        rintro rfl
        rw [ht.lookup?_root_parent] at hlookup
        cases hlookup
      obtain ⟨k', d, -, hkin, hlookup', -, -, hdecisions⟩ := ht.exists_decision ha hroot
      obtain rfl := Option.some.inj (hlookup.symm.trans hlookup')
      rw [hdecisions]
      exact (ih hkin).trans (List.prefix_append _ _)

/-- Decisions with the same stamps lead to the same node. -/
theorem eq_of_stamps (ht : t.Rooted) (hdistinct : (t.made.map Decision.stamp).Nodup)
    (ha : t.InArena a) (hb : t.InArena b)
    (hstamps : (t.node a).decisions.map Decision.stamp = (t.node b).decisions.map Decision.stamp) :
    a = b := by
  have hlength : (t.node a).decisions.length = (t.node b).decisions.length := by
    simpa using congrArg List.length hstamps
  by_cases hra : a = root
  · rw [hra, ht.root_decisions] at hlength
    by_contra hne
    obtain ⟨k, d, -, -, -, -, -, hdecisions⟩ := ht.exists_decision hb (hra ▸ Ne.symm hne)
    rw [hdecisions, List.length_append, List.length_singleton] at hlength
    cases hlength
  · obtain ⟨k, d, -, -, -, -, hfresh, hdecisions⟩ := ht.exists_decision ha hra
    have hrb : b ≠ root := by
      rintro rfl
      rw [ht.root_decisions, hdecisions, List.length_append, List.length_singleton] at hlength
      cases hlength
    obtain ⟨k', e, -, -, -, -, hfresh', hdecisions'⟩ := ht.exists_decision hb hrb
    rw [hdecisions, hdecisions', List.map_append, List.map_append] at hstamps
    have hlast := (List.append_inj' hstamps rfl).2
    refine eq_of_fresh hdistinct (ht.lt_size ha) (ht.lt_size hb) (d := d) (e := e) ?_ ?_ ?_
    · rw [hfresh]
      exact List.mem_singleton_self d
    · rw [hfresh']
      exact List.mem_singleton_self e
    · simpa using hlast

/-- What two nodes share of their decisions are the decisions of their common ancestor. -/
theorem commonPrefixLength_eq (ht : t.Rooted) (hdistinct : (t.made.map Decision.stamp).Nodup)
    (ha : t.InArena a) (hb : t.InArena b) (hca : t.Above c a) (hcb : t.Above c b)
    (hmost : ∀ c', t.Above c' a → t.Above c' b → t.Above c' c) :
    Decision.commonPrefixLength (t.node a).decisions (t.node b).decisions =
      (t.node c).decisions.length := by
  have hc := ht.inArena_of_above ha hca
  have hshared :=
    Decision.longestShared_commonPrefixLength (t.node a).decisions (t.node b).decisions
  refine Nat.le_antisymm ?_ ?_
  · -- The ancestors at the end of what is shared are one node, and it is above the common one.
    obtain ⟨x, hx, hxa, hxd⟩ := ht.exists_above_at ha hshared.le_left
    obtain ⟨y, hy, hyb, hyd⟩ := ht.exists_above_at hb hshared.le_right
    have hxy : x = y := ht.eq_of_stamps hdistinct hx hy (by rw [hxd, hyd, hshared.agree])
    subst hxy
    have hbegins := ht.decisions_begin_of_above hc (hmost x hxa hyb)
    rw [hxd] at hbegins
    simpa [hshared.le_left] using hbegins.length_le
  · have hbegins := ht.decisions_begin_of_above ha hca
    have hbegins' := ht.decisions_begin_of_above hb hcb
    refine hshared.longest _ hbegins.length_le hbegins'.length_le ?_
    rw [← List.prefix_iff_eq_take.mp hbegins, ← List.prefix_iff_eq_take.mp hbegins']

end Rooted

theorem Sourced.identified (hs : t.Sourced) (hdistinct : (t.made.map Decision.stamp).Nodup)
    (h k : Handle) : Decision.Identified ((t.node h).decisions ++ (t.node k).decisions) := by
  have hmade : Decision.Identified t.made := fun d hd e he hstamp =>
    List.inj_on_of_nodup_map hdistinct hd he hstamp
  exact hmade.mono (List.append_subset.mpr ⟨hs h, hs k⟩)

end Tree

/-! ### The calls of a move -/

def Call.carries {μ : Type} (a : Act) : Call μ → Bool
  | .act a' _ => a' == a
  | .notify .. => false

namespace Trail

variable {μ σ : Type} {perform : Call μ → Action σ Unit}

theorem countP_callsFor (names : List String) (a b : Act) (ds : List (Decision μ)) :
    (ds.flatMap (callsFor names a)).countP (Call.carries b) = if a = b then ds.length else 0 := by
  have hone : ∀ d : Decision μ,
      (callsFor names a d).countP (Call.carries b) = if a = b then 1 else 0 := by
    intro d
    have hnotices : (names.map fun name => Call.notify name a d).countP (Call.carries b) = 0 := by
      rw [List.countP_map]
      exact List.countP_eq_zero.mpr fun _ _ => Bool.false_ne_true
    rw [callsFor, List.countP_cons, hnotices, Nat.zero_add]
    simp [Call.carries]
  rw [List.countP_flatMap, show List.countP (Call.carries b) ∘ callsFor names a =
    fun _ => if a = b then 1 else 0 from funext hone, List.map_const', List.sum_replicate]
  split
  · rw [smul_eq_mul, Nat.mul_one]
  · rw [smul_zero]

/-- A plan takes back what the history has beyond the decisions kept, and applies what the path has
beyond them. -/
theorem countP_plan (names : List String) {history : List (Decision μ)} {kept : Nat}
    (hkept : kept ≤ history.length) (path : List (Decision μ)) :
    (plan names history path kept).countP (Call.carries .revert) = history.length - kept ∧
      (plan names history path kept).countP (Call.carries .apply) = path.length - kept := by
  simp [plan, List.countP_append, countP_callsFor, Nat.min_eq_left hkept]

/-- Calls that never fail can be performed from any state. -/
theorem exists_performs (hsafe : ∀ call s, (perform call).Safe s) (calls : List (Call μ))
    (s : σ) : ∃ s', Performs perform calls s s' := by
  induction calls generalizing s with
  | nil => exact ⟨s, .nil s⟩
  | cons call calls ih =>
      obtain ⟨⟨⟩, s₁, hcall⟩ := (hsafe call s).gives
      obtain ⟨s', hrest⟩ := ih s₁
      exact ⟨s', .cons hcall hrest⟩

theorem safe_recording (hsafe : ∀ call s, (perform call).Safe s) (call : Call μ)
    (w : List (Call μ) × σ) : (recording perform call).Safe w := by
  obtain ⟨⟨⟩, s', hcall⟩ := (hsafe call w.2).gives
  have hgives : (recording perform call).Gives w () (w.1 ++ [call], s') := by
    simp only [Action.Gives, Action.runOn] at hcall ⊢
    simp only [recording, Action.runOn, hcall]
  exact hgives.safe

/-- Without failing calls every move succeeds. -/
theorem exists_transition {t : Trail μ} (hsafe : ∀ call s, (perform call).Safe s)
    (hconsistent : t.consistent = true) (stop : Stop μ) (s : σ) :
    ∃ t' s', t.transition perform stop s = (.ok (), t', s') := by
  obtain ⟨s', hperf⟩ := exists_performs hsafe (plan t.listeners t.history stop.path
    (Decision.commonPrefixLength t.current.path stop.path)) s
  simp only [transition, moveTo, hconsistent, if_true, carryOut_of_performs hperf t]
  exact ⟨_, _, rfl⟩

end Trail

/-! ### A tree with a trail on it -/

section Session

variable {α μ σ : Type} [Scalar α]

def Tree.stop (t : Tree α μ) (h : Handle) : Stop μ := ⟨h, (t.node h).decisions⟩

/-- The states of a tree and of a trail that starts at its root, with the decisions that edits were
given so far and the world that the trail acts on. Edits of the tree, changes of the listeners and
moves of the trail follow each other in any order. -/
inductive Session (perform : Call μ → Action σ Unit) (s₀ : σ) :
    List (Decision μ) → Tree α μ → Trail μ → σ → Prop where
  | start : Session perform s₀ [] Tree.initial (Trail.start ⟨Tree.root, []⟩) s₀
  | edit {ds t trail s} (before : Session perform s₀ ds t trail s) (e : Tree.Edit α μ)
      (permitted : t.Permits e) :
      Session perform s₀ (ds ++ e.decided) (t.perform e).2 trail s
  | register {ds t trail s} (before : Session perform s₀ ds t trail s) (name : String) :
      Session perform s₀ ds t (trail.addListener name) s
  | unregister {ds t trail s} (before : Session perform s₀ ds t trail s) (name : String) :
      Session perform s₀ ds t (trail.removeListener name) s
  | visit {ds t trail trail' s s'} (before : Session perform s₀ ds t trail s) (h : Nat)
      (known : h < t.records.size)
      (moved : trail.transition perform (t.stop h) s = (.ok (), trail', s')) :
      Session perform s₀ ds t trail' s'
  | home {ds t trail trail' s s'} (before : Session perform s₀ ds t trail s)
      (moved : trail.restore perform s = (.ok (), trail', s')) :
      Session perform s₀ ds t trail' s'

variable {perform : Call μ → Action σ Unit} {s₀ s s' : σ} {ds : List (Decision μ)} {t : Tree α μ}
  {trail trail' : Trail μ} {a b : Nat}

structure InStep (ds : List (Decision μ)) (t : Tree α μ) (trail : Trail μ) : Prop where
  rooted : t.Rooted
  sourced : t.Sourced
  made_eq : t.made = ds
  known : trail.current.node < t.records.size
  current_eq : trail.current = t.stop trail.current.node
  history_eq : trail.history = trail.current.path
  consistent : trail.consistent = true
  root_eq : trail.root = ⟨Tree.root, []⟩

theorem inStep_start : InStep [] (Tree.initial : Tree α μ) (Trail.start ⟨Tree.root, []⟩) :=
  ⟨Tree.rooted_initial, Tree.sourced_initial, rfl, Nat.one_pos, rfl, rfl, rfl, rfl⟩

namespace InStep

theorem edit (hin : InStep ds t trail) {e : Tree.Edit α μ} (hp : t.Permits e) :
    InStep (ds ++ e.decided) (t.perform e).2 trail := by
  have henlarges := hin.rooted.enlarges_perform hp
  refine ⟨hin.rooted.perform hp, henlarges.sourced hin.sourced, hin.made_eq ▸ henlarges.made_eq,
    hin.known.trans_le henlarges.size_le, ?_, hin.history_eq, hin.consistent, hin.root_eq⟩
  rw [Tree.stop, henlarges.decisions_eq _ hin.known]
  exact hin.current_eq

theorem listen (hin : InStep ds t trail) (names : List String) :
    InStep ds t { trail with listeners := names } :=
  ⟨hin.rooted, hin.sourced, hin.made_eq, hin.known, hin.current_eq, hin.history_eq, hin.consistent,
    hin.root_eq⟩

theorem settled (hin : InStep ds t trail) : trail.Settled := ⟨hin.consistent, Or.inl hin.history_eq⟩

theorem identified (hin : InStep ds t trail) (hdistinct : (ds.map Decision.stamp).Nodup)
    (h : Handle) : Decision.Identified (trail.history ++ (t.stop h).path) := by
  rw [hin.history_eq, hin.current_eq]
  exact hin.sourced.identified (hin.made_eq ▸ hdistinct) _ _

theorem visit (hin : InStep ds t trail) (hdistinct : (ds.map Decision.stamp).Nodup) {h : Nat}
    (known : h < t.records.size)
    (moved : trail.transition perform (t.stop h) s = (.ok (), trail', s')) :
    InStep ds t trail' := by
  obtain ⟨rfl, -⟩ := hin.settled.transition_ok (hin.identified hdistinct h) moved
  exact ⟨hin.rooted, hin.sourced, hin.made_eq, known, rfl, rfl, hin.consistent, hin.root_eq⟩

theorem home (hin : InStep ds t trail) (moved : trail.restore perform s = (.ok (), trail', s')) :
    InStep ds t trail' := by
  obtain ⟨rfl, -⟩ := Trail.restore_ok moved
  have hroot : trail.root = t.stop Tree.root := by
    rw [hin.root_eq, Tree.stop, hin.rooted.root_decisions]
  have hnode : trail.root.node = Tree.root := congrArg Stop.node hroot
  refine ⟨hin.rooted, hin.sourced, hin.made_eq, ?_, ?_, ?_, hin.consistent, hin.root_eq⟩
  · show trail.root.node < _
    rw [hnode]
    exact hin.rooted.lt_size hin.rooted.root_inArena
  · show trail.root = t.stop trail.root.node
    rw [hnode, hroot]
  · exact (congrArg Stop.path hin.root_eq).symm

/-- The calls of a move are those of the plan between the decisions of the two nodes. -/
theorem calls_eq (hin : InStep ds t trail) {calls : List (Call μ)}
    (moved : trail.transition (Trail.recording perform) (t.stop b) ([], s) =
      (.ok (), trail', calls, s')) :
    calls = Trail.plan trail.listeners (t.node trail.current.node).decisions (t.node b).decisions
      (Decision.commonPrefixLength (t.node trail.current.node).decisions
        (t.node b).decisions) := by
  have hpath : trail.current.path = (t.node trail.current.node).decisions :=
    congrArg Stop.path hin.current_eq
  obtain ⟨hperf, -⟩ := Trail.moveTo_ok moved
  have hcalls := hperf.of_recording.1
  rw [hin.history_eq, hpath, List.nil_append] at hcalls
  exact hcalls

end InStep

theorem Session.edits (session : Session perform s₀ ds t trail s) {es : List (Tree.Edit α μ)}
    (hp : t.PermitsAll es) :
    Session perform s₀ (ds ++ es.flatMap Tree.Edit.decided) (t.after es) trail s := by
  induction es generalizing ds t with
  | nil =>
      rw [List.flatMap_nil, List.append_nil]
      exact session
  | cons e es ih =>
      rw [List.flatMap_cons, ← List.append_assoc]
      exact ih (session.edit e hp.1) hp.2

/-- With decisions that are all different, every state of a session is in order. -/
theorem Session.inStep (session : Session perform s₀ ds t trail s)
    (hdistinct : (ds.map Decision.stamp).Nodup) : InStep ds t trail := by
  induction session with
  | start => exact inStep_start
  | edit _ e permitted ih =>
      rw [List.map_append] at hdistinct
      exact (ih hdistinct.of_append_left).edit permitted
  | register _ name ih | unregister _ name ih => exact (ih hdistinct).listen _
  | visit _ h known moved ih => exact (ih hdistinct).visit hdistinct known moved
  | home _ moved ih => exact (ih hdistinct).home moved

/-- However a tree was edited and however a trail moved on it, as long as all decisions were
different: what two nodes of the arena share of their decisions is as long as their common ancestor
is deep, and a move from the one to the other takes back the decisions down from there to the first
and applies those to the second, no more. It succeeds if no call fails. -/
theorem move_costs_distance (session : Session perform s₀ ds t trail s)
    (hdistinct : (ds.map Decision.stamp).Nodup) (ha : t.InArena a) (hb : t.InArena b) :
    ∃ c, t.commonAncestor a b = .ok c ∧
      (Decision.commonPrefixLength (t.node a).decisions (t.node b).decisions : Int) =
        (t.node c).depth ∧
      (trail.current.node = a →
        (∀ trail' calls s', trail.transition (Trail.recording perform) (t.stop b) ([], s) =
            (.ok (), trail', calls, s') →
          (calls.countP (Call.carries .revert) : Int) = (t.node a).depth - (t.node c).depth ∧
          (calls.countP (Call.carries .apply) : Int) = (t.node b).depth - (t.node c).depth) ∧
        ((∀ call s, (perform call).Safe s) → ∃ trail' calls s',
          trail.transition (Trail.recording perform) (t.stop b) ([], s) =
            (.ok (), trail', calls, s'))) := by
  have hin := session.inStep hdistinct
  have hmade : (t.made.map Decision.stamp).Nodup := hin.made_eq ▸ hdistinct
  obtain ⟨c, hfound, hca, hcb, hmost⟩ := hin.rooted.commonAncestor_spec ha hb
  have hlength := hin.rooted.commonPrefixLength_eq hmade ha hb hca hcb hmost
  have hda := hin.rooted.length_decisions ha
  have hdb := hin.rooted.length_decisions hb
  have hdc := hin.rooted.length_decisions (hin.rooted.inArena_of_above ha hca)
  have hshared :=
    Decision.longestShared_commonPrefixLength (t.node a).decisions (t.node b).decisions
  rw [hlength] at hshared
  refine ⟨c, hfound, by rw [hlength, hdc], fun hat => ⟨fun trail' calls s' moved => ?_, ?_⟩⟩
  · have hcalls := hin.calls_eq moved
    rw [hat, hlength] at hcalls
    obtain ⟨hreverts, happlies⟩ :=
      Trail.countP_plan trail.listeners hshared.le_left (t.node b).decisions
    rw [hcalls, hreverts, happlies, Nat.cast_sub hshared.le_left, Nat.cast_sub hshared.le_right,
      hda, hdb, hdc]
    exact ⟨rfl, rfl⟩
  · intro hsafe
    obtain ⟨trail', ⟨calls, s'⟩, moved⟩ := Trail.exists_transition (Trail.safe_recording hsafe)
      hin.consistent (t.stop b) ([], s)
    exact ⟨trail', calls, s', moved⟩

def Tree.twoLevels : List (Tree.Edit Numeric.Extended Move) :=
  let edge (u v : Int) : Edge := [.int u, .int v]
  [.createChildren 0 [⟨0, .fix (edge 0 1)⟩, ⟨1, .remove (edge 0 1)⟩],
    .createChildren 1 [⟨2, .fix (edge 1 2)⟩, ⟨3, .remove (edge 1 2)⟩],
    .createChildren 2 [⟨4, .fix (edge 2 3)⟩, ⟨5, .remove (edge 2 3)⟩],
    .markProcessed 6 .prunedInfeasible, .discard 6]

/-- From the first leaf it costs one decision each way to get to its sibling, and two to get to a
leaf on the other side. -/
theorem move_costs_distance_twoLevels :
    let stage : Stage Numeric.Extended := Stage.initial Watch.empty
    let tree := (Tree.initial : Tree Numeric.Extended Move).after Tree.twoLevels
    let trail := (Trail.start ⟨Tree.root, []⟩ : Trail Move).addListener "ear"
    let down := trail.transition Stage.perform (tree.stop 3) stage
    let across (b : Handle) :=
      down.2.1.transition (Trail.recording Stage.perform) (tree.stop b) ([], down.2.2)
    ((Tree.twoLevels.flatMap Tree.Edit.decided).map Decision.stamp).Nodup ∧ down.1 = .ok () ∧
      (across 4).1 = .ok () ∧ (across 5).1 = .ok () ∧
      (∃ c, tree.commonAncestor 3 4 = .ok c ∧
        ((across 4).2.2.1.countP (Call.carries .revert) : Int) =
          (tree.node 3).depth - (tree.node c).depth ∧
        ((across 4).2.2.1.countP (Call.carries .apply) : Int) =
          (tree.node 4).depth - (tree.node c).depth) ∧
      (∃ c, tree.commonAncestor 3 5 = .ok c ∧
        ((across 5).2.2.1.countP (Call.carries .revert) : Int) =
          (tree.node 3).depth - (tree.node c).depth ∧
        ((across 5).2.2.1.countP (Call.carries .apply) : Int) =
          (tree.node 5).depth - (tree.node c).depth) := by
  intro stage tree trail down across
  have hdistinct :
      ((Tree.twoLevels.flatMap Tree.Edit.decided).map Decision.stamp).Nodup := by decide
  have hdown : down.1 = .ok () := by decide +kernel
  have visited : down = (.ok (), down.2.1, down.2.2) := by rw [← hdown]
  have hacross : ∀ b ∈ [4, 5], (across b).1 = .ok () := by decide +kernel
  have hpermits : (Tree.initial : Tree Numeric.Extended Move).PermitsAll Tree.twoLevels := by
    decide +kernel
  have session : Session Stage.perform stage (Tree.twoLevels.flatMap Tree.Edit.decided) tree
      down.2.1 down.2.2 :=
    ((Session.start.edits hpermits).register "ear").visit 3 (by decide +kernel) visited
  have hcost : ∀ b ∈ [4, 5], ∃ c, tree.commonAncestor 3 b = .ok c ∧
      ((across b).2.2.1.countP (Call.carries .revert) : Int) =
        (tree.node 3).depth - (tree.node c).depth ∧
      ((across b).2.2.1.countP (Call.carries .apply) : Int) =
        (tree.node b).depth - (tree.node c).depth := by
    intro b hb
    have harena : tree.InArena 3 ∧ ∀ b ∈ [4, 5], tree.InArena b := by decide +kernel
    obtain ⟨c, hfound, -, hmove⟩ := move_costs_distance session hdistinct harena.1 (harena.2 b hb)
    have crossed : across b =
        (.ok (), (across b).2.1, (across b).2.2.1, (across b).2.2.2) := by rw [← hacross b hb]
    exact ⟨c, hfound, (hmove (by decide +kernel)).1 _ _ _ crossed⟩
  exact ⟨hdistinct, hdown, hacross 4 (by decide), hacross 5 (by decide), hcost 4 (by decide),
    hcost 5 (by decide)⟩

end Session

end TourSearch
