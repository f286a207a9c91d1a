import TourSearch.Numeric.Extended
import TourSearch.Proofs.Restrictions
import TourSearch.Search.Script
import TourSearch.Trail
import Mathlib

/-!
The law of the trail. A trail stands at a node with exactly the decisions of its path applied, and a
move between two nodes takes back what the first path has beyond the shared beginning and applies
what the second one has beyond it, each act followed by its notices. If taking back undoes applying,
the state therefore depends only on the node and not on the way there.

The calls of a move are observed by a trail that records them (`recording`), and what a sequence of
calls does is the relation `Performs`.
-/

namespace TourSearch

namespace Decision

variable {μ : Type}

/-- `k` is the length of the longest beginning that two paths share, decision by decision. -/
structure LongestShared (ds es : List (Decision μ)) (k : Nat) : Prop where
  le_left : k ≤ ds.length
  le_right : k ≤ es.length
  agree : (ds.take k).map stamp = (es.take k).map stamp
  longest : ∀ j, j ≤ ds.length → j ≤ es.length →
    (ds.take j).map stamp = (es.take j).map stamp → j ≤ k

theorem longestShared_commonPrefixLength (ds es : List (Decision μ)) :
    LongestShared ds es (commonPrefixLength ds es) := by
  induction ds generalizing es with
  | nil => exact ⟨by simp [commonPrefixLength], by simp [commonPrefixLength], rfl, by simp⟩
  | cons d ds ih =>
      cases es with
      | nil =>
          refine ⟨by simp [commonPrefixLength], by simp [commonPrefixLength], rfl, ?_⟩
          intro j _ hj _
          exact Nat.le_trans hj (Nat.zero_le _)
      | cons e es =>
          obtain ⟨hleft, hright, hagree, hlongest⟩ := ih es
          by_cases hde : d.stamp = e.stamp
          · have hlen : commonPrefixLength (d :: ds) (e :: es) = commonPrefixLength ds es + 1 := by
              simp [commonPrefixLength, same, hde]
            rw [hlen]
            refine ⟨Nat.succ_le_succ hleft, Nat.succ_le_succ hright, by simp [hde, hagree], ?_⟩
            intro j hj₁ hj₂ hj
            cases j with
            | zero => omega
            | succ j =>
                have htail : (ds.take j).map stamp = (es.take j).map stamp := by
                  simpa [hde] using hj
                exact Nat.succ_le_succ
                  (hlongest j (Nat.le_of_succ_le_succ hj₁) (Nat.le_of_succ_le_succ hj₂) htail)
          · have hlen : commonPrefixLength (d :: ds) (e :: es) = 0 := by
              simp [commonPrefixLength, same, hde]
            rw [hlen]
            refine ⟨Nat.zero_le _, Nat.zero_le _, rfl, ?_⟩
            intro j _ _ hj
            cases j with
            | zero => exact Nat.le_refl 0
            | succ j =>
                rw [List.take_succ_cons, List.take_succ_cons, List.map_cons, List.map_cons] at hj
                exact absurd (List.cons.inj hj).1 hde

/-- Among the decisions of a list, equal stamps mean equal decisions. -/
def Identified (ds : List (Decision μ)) : Prop :=
  ∀ d ∈ ds, ∀ e ∈ ds, d.stamp = e.stamp → d = e

theorem Identified.mono {ds es : List (Decision μ)} (h : Identified es) (hsub : ds ⊆ es) :
    Identified ds := fun d hd e he => h d (hsub hd) e (hsub he)

/-- Beginnings with equal stamps are equal. -/
theorem Identified.eq_of_stamps {ds es fs : List (Decision μ)} (h : Identified fs)
    (hds : ds ⊆ fs) (hes : es ⊆ fs) (hstamps : ds.map stamp = es.map stamp) : ds = es := by
  induction ds generalizing es with
  | nil => simpa using hstamps.symm
  | cons d ds ih =>
      cases es with
      | nil => simp at hstamps
      | cons e es =>
          rw [List.map_cons, List.map_cons] at hstamps
          obtain ⟨hhead, htail⟩ := List.cons.inj hstamps
          rw [h d (hds List.mem_cons_self) e (hes List.mem_cons_self) hhead,
            ih (fun x hx => hds (List.mem_cons_of_mem _ hx))
              (fun x hx => hes (List.mem_cons_of_mem _ hx)) htail]

theorem LongestShared.take_eq {ds es : List (Decision μ)} {k : Nat} (h : LongestShared ds es k)
    (hid : Identified (ds ++ es)) : ds.take k = es.take k :=
  hid.eq_of_stamps
    (fun _ hx => List.mem_append_left _ (List.mem_of_mem_take hx))
    (fun _ hx => List.mem_append_right _ (List.mem_of_mem_take hx)) h.agree

end Decision

namespace Trail

variable {μ σ τ : Type}

/-! ### What a sequence of calls does -/

/-- The calls are performed one after the other, all with success. -/
inductive Performs (perform : Call μ → Action σ Unit) : List (Call μ) → σ → σ → Prop where
  | nil (s : σ) : Performs perform [] s s
  | cons {call : Call μ} {rest : List (Call μ)} {s s₁ s₂ : σ}
      (first : (perform call).runOn s = (.ok (), s₁)) (others : Performs perform rest s₁ s₂) :
      Performs perform (call :: rest) s s₂

theorem Performs.eq_of_nil {perform : Call μ → Action σ Unit} {s s' : σ}
    (h : Performs perform [] s s') : s' = s := by
  cases h
  rfl

theorem Performs.of_append {perform : Call μ → Action σ Unit} {as bs : List (Call μ)} {s s₂ : σ}
    (h : Performs perform (as ++ bs) s s₂) :
    ∃ s₁, Performs perform as s s₁ ∧ Performs perform bs s₁ s₂ := by
  induction as generalizing s with
  | nil => exact ⟨s, .nil s, h⟩
  | cons a as ih =>
      cases h with
      | cons first others =>
          obtain ⟨s₁, has, hbs⟩ := ih others
          exact ⟨s₁, .cons first has, hbs⟩

theorem Performs.append {perform : Call μ → Action σ Unit} {as bs : List (Call μ)} {s s₁ s₂ : σ}
    (has : Performs perform as s s₁) (hbs : Performs perform bs s₁ s₂) :
    Performs perform (as ++ bs) s s₂ := by
  induction has with
  | nil s => exact hbs
  | cons first _ ih => exact .cons first (ih hbs)

/-- What is kept by every act with its notices is kept by a plan. -/
theorem Performs.keeps_plan {perform : Call μ → Action σ Unit} {listeners : List String}
    {P : σ → Prop}
    (hstep : ∀ {a d s s'}, P s → Performs perform (callsFor listeners a d) s s' → P s')
    {history path : List (Decision μ)} {kept : Nat} {s s' : σ}
    (hperf : Performs perform (plan listeners history path kept) s s') (hs : P s) : P s' := by
  have hall : ∀ {a} {ds : List (Decision μ)} {s s'}, P s →
      Performs perform (ds.flatMap (callsFor listeners a)) s s' → P s' := by
    intro a ds
    induction ds with
    | nil =>
        intro s s' hs hperf
        exact hperf.eq_of_nil ▸ hs
    | cons d ds ih =>
        intro s s' hs hperf
        obtain ⟨s₁, hfirst, hrest⟩ := Performs.of_append hperf
        exact ih (hstep hs hfirst) hrest
  obtain ⟨s₁, hreverts, happlies⟩ := hperf.of_append
  exact hall (hall hs hreverts) happlies

/-- Calls that are carried out without failure are performed, and noted in the history. -/
theorem carryOut_ok {perform : Call μ → Action σ Unit} {calls : List (Call μ)} {t t' : Trail μ}
    {s s' : σ} (h : carryOut perform calls t s = (.ok (), t', s')) :
    Performs perform calls s s' ∧ t' = calls.foldl note t := by
  induction calls generalizing t s with
  | nil =>
      simp only [carryOut, Prod.mk.injEq, true_and] at h
      obtain ⟨rfl, rfl⟩ := h
      exact ⟨.nil _, rfl⟩
  | cons call rest ih =>
      simp only [carryOut] at h
      split at h
      · rename_i s₁ hcall
        obtain ⟨hrest, ht⟩ := ih h
        exact ⟨.cons hcall hrest, ht⟩
      · simp at h

theorem carryOut_of_performs {perform : Call μ → Action σ Unit} {calls : List (Call μ)} {s s' : σ}
    (h : Performs perform calls s s') (t : Trail μ) :
    carryOut perform calls t s = (.ok (), calls.foldl note t, s') := by
  induction h generalizing t with
  | nil s => rfl
  | cons first _ ih => simp only [carryOut, first, ih, List.foldl_cons]

/-! ### The history along a plan -/

theorem foldl_note_notices (names : List String) (a : Act) (d : Decision μ) (t : Trail μ) :
    (names.map fun name => Call.notify name a d).foldl note t = t := by
  induction names with
  | nil => rfl
  | cons name names ih => exact ih

@[simp] theorem foldl_note_apply (listeners : List String) (ds : List (Decision μ)) (t : Trail μ) :
    (ds.flatMap (callsFor listeners .apply)).foldl note t =
      { t with history := t.history ++ ds } := by
  induction ds generalizing t with
  | nil => simp
  | cons d ds ih =>
      rw [List.flatMap_cons, List.foldl_append, callsFor, List.foldl_cons, foldl_note_notices, ih]
      simp [note]

@[simp] theorem foldl_note_revert (listeners : List String) (ds : List (Decision μ))
    (t : Trail μ) :
    (ds.flatMap (callsFor listeners .revert)).foldl note t =
      { t with history := t.history.take (t.history.length - ds.length) } := by
  induction ds generalizing t with
  | nil => simp
  | cons d ds ih =>
      rw [List.flatMap_cons, List.foldl_append, callsFor, List.foldl_cons, foldl_note_notices, ih]
      simp only [note, List.length_dropLast, List.length_cons]
      rw [List.dropLast_eq_take, List.take_take]
      congr 2
      omega

/-- A plan keeps the first decisions of the history and adds the rest of the path. -/
theorem foldl_note_plan (listeners : List String) (path : List (Decision μ)) (kept : Nat)
    (t : Trail μ) :
    (plan listeners t.history path kept).foldl note t =
      { t with history := t.history.take kept ++ path.drop (min kept t.history.length) } := by
  have hlen : t.history.length - (t.history.length - kept) = min kept t.history.length := by omega
  have htake : t.history.take (min kept t.history.length) = t.history.take kept := by simp
  simp only [plan, List.foldl_append, foldl_note_revert, foldl_note_apply, List.length_reverse,
    List.length_drop, hlen, htake]

/-! ### One move -/

/-- A trail that has not failed stands at a node with its path applied, or at a root from where
nothing has been applied yet. -/
structure Settled (t : Trail μ) : Prop where
  consistent : t.consistent = true
  applied : t.history = t.current.path ∨ t.history = []

theorem moveTo_ok {perform : Call μ → Action σ Unit} {stop : Stop μ} {calls : List (Call μ)}
    {t t' : Trail μ} {s s' : σ} (h : moveTo perform stop calls t s = (.ok (), t', s')) :
    Performs perform calls s s' ∧ t' = { calls.foldl note t with current := stop } := by
  unfold moveTo at h
  split at h
  · split at h
    · rename_i t₁ s₁ hcarry
      obtain ⟨hperf, ht⟩ := carryOut_ok hcarry
      simp only [Prod.mk.injEq, true_and] at h
      obtain ⟨rfl, rfl⟩ := h
      exact ⟨hperf, by rw [ht]⟩
    · rename_i failed hnot
      exact absurd h (hnot () t' s')
  · simp at h

/-- The shared beginning is measured along the current path, and cut by the length of the history;
for a settled trail it is the shared beginning of the history. -/
theorem Settled.plan_eq {t : Trail μ} (h : t.Settled) (path : List (Decision μ)) :
    plan t.listeners t.history path (Decision.commonPrefixLength t.current.path path) =
      plan t.listeners t.history path (Decision.commonPrefixLength t.history path) := by
  rcases h.applied with happlied | hnone
  · rw [happlied]
  · simp [plan, hnone]

/-- A successful transition makes the calls from the shared beginning on, and leaves the trail at
the node with its path applied. -/
theorem Settled.transition_ok {perform : Call μ → Action σ Unit} {stop : Stop μ} {t t' : Trail μ}
    {s s' : σ} (settled : t.Settled) (hid : Decision.Identified (t.history ++ stop.path))
    (h : transition perform stop t s = (.ok (), t', s')) :
    t' = { t with history := stop.path, current := stop } ∧
      ∃ k, Decision.LongestShared t.history stop.path k ∧
        Performs perform (plan t.listeners t.history stop.path k) s s' := by
  have hmove := moveTo_ok h
  rw [settled.plan_eq] at hmove
  obtain ⟨hperf, ht⟩ := hmove
  have hshared := Decision.longestShared_commonPrefixLength t.history stop.path
  refine ⟨?_, _, hshared, hperf⟩
  rw [ht, foldl_note_plan, Nat.min_eq_left hshared.le_left, hshared.take_eq hid,
    List.take_append_drop]

theorem restore_ok {perform : Call μ → Action σ Unit} {t t' : Trail μ} {s s' : σ}
    (h : restore perform t s = (.ok (), t', s')) :
    t' = { t with history := [], current := t.root } ∧
      Performs perform (plan t.listeners t.history [] 0) s s' := by
  obtain ⟨hperf, ht⟩ := moveTo_ok h
  refine ⟨?_, hperf⟩
  rw [ht, foldl_note_plan]
  simp

/-! ### The state under the trail

Decisions act on a state of type `τ`, which is a part of the world. The notices may change the
world, but not this part of it. -/

/-- The calls act on the part `view` of the world as `act` says. -/
structure ActsOn (perform : Call μ → Action σ Unit) (view : σ → τ)
    (act : Act → Decision μ → τ → Except Fault τ) : Prop where
  act_ok : ∀ {a d s s'}, (perform (.act a d)).runOn s = (.ok (), s') →
    act a d (view s) = .ok (view s')
  notify_ok : ∀ {name a d s s'}, (perform (.notify name a d)).runOn s = (.ok (), s') →
    view s' = view s

def applyAll (act : Act → Decision μ → τ → Except Fault τ) : List (Decision μ) → τ → Except Fault τ
  | [], x => .ok x
  | d :: ds, x => act .apply d x >>= applyAll act ds

theorem applyAll_append {act : Act → Decision μ → τ → Except Fault τ}
    (ds es : List (Decision μ)) (x : τ) :
    applyAll act (ds ++ es) x = applyAll act ds x >>= applyAll act es := by
  induction ds generalizing x with
  | nil => rfl
  | cons d ds ih =>
      rw [List.cons_append, applyAll, applyAll]
      cases act .apply d x with
      | error fault => rfl
      | ok y => exact ih y

theorem applyAll_concat {act : Act → Decision μ → τ → Except Fault τ} {ds : List (Decision μ)}
    {d : Decision μ} {x z : τ} :
    applyAll act (ds ++ [d]) x = .ok z ↔
      ∃ y, applyAll act ds x = .ok y ∧ act .apply d y = .ok z := by
  rw [applyAll_append]
  cases applyAll act ds x with
  | error fault => simp [bind, Except.bind]
  | ok y =>
      cases hd : act .apply d y <;> simp [bind, Except.bind, applyAll, hd]

/-- Along a path from a state, taking back a decision undoes its application. -/
def Undoes (act : Act → Decision μ → τ → Except Fault τ) (path : List (Decision μ)) (x₀ : τ) :
    Prop :=
  ∀ ds d, ds ++ [d] <+: path → ∀ x y, applyAll act ds x₀ = .ok x → act .apply d x = .ok y →
    act .revert d y = .ok x

variable {perform : Call μ → Action σ Unit} {view : σ → τ}
  {act : Act → Decision μ → τ → Except Fault τ}

theorem ActsOn.notices (h : ActsOn perform view act) {names : List String} {a : Act}
    {d : Decision μ} {s s' : σ}
    (hperf : Performs perform (names.map fun name => .notify name a d) s s') :
    view s' = view s := by
  induction names generalizing s with
  | nil =>
      cases hperf
      rfl
  | cons name names ih =>
      cases hperf with
      | cons first others => rw [ih others, h.notify_ok first]

theorem ActsOn.callsFor (h : ActsOn perform view act) {names : List String} {a : Act}
    {d : Decision μ} {s s' : σ} (hperf : Performs perform (callsFor names a d) s s') :
    act a d (view s) = .ok (view s') := by
  cases hperf with
  | cons first others => rw [h.notices others, h.act_ok first]

theorem ActsOn.applies (h : ActsOn perform view act) {names : List String}
    {ds es : List (Decision μ)} {x₀ : τ} {s s' : σ} (hs : applyAll act ds x₀ = .ok (view s))
    (hperf : Performs perform (es.flatMap (Trail.callsFor names .apply)) s s') :
    applyAll act (ds ++ es) x₀ = .ok (view s') := by
  induction es generalizing ds s with
  | nil =>
      cases hperf
      simpa using hs
  | cons e es ih =>
      rw [List.flatMap_cons] at hperf
      obtain ⟨s₁, hfirst, hrest⟩ := hperf.of_append
      have hs₁ : applyAll act (ds ++ [e]) x₀ = .ok (view s₁) :=
        applyAll_concat.mpr ⟨_, hs, h.callsFor hfirst⟩
      have := ih hs₁ hrest
      rwa [List.append_assoc, List.singleton_append] at this

theorem ActsOn.reverts (h : ActsOn perform view act) {names : List String}
    {ds es : List (Decision μ)} {x₀ : τ} {s s' : σ} (hundo : Undoes act (ds ++ es) x₀)
    (hs : applyAll act (ds ++ es) x₀ = .ok (view s))
    (hperf : Performs perform (es.reverse.flatMap (Trail.callsFor names .revert)) s s') :
    applyAll act ds x₀ = .ok (view s') := by
  -- The decisions are taken back from the last one, so the induction is on the reversed list.
  induction es using List.reverseRecOn generalizing s with
  | nil =>
      cases hperf
      simpa using hs
  | append_singleton es e ih =>
      rw [List.reverse_append, List.reverse_singleton, List.singleton_append,
        List.flatMap_cons] at hperf
      obtain ⟨s₁, hfirst, hrest⟩ := hperf.of_append
      rw [← List.append_assoc] at hs hundo
      obtain ⟨x, hx, happly⟩ := applyAll_concat.mp hs
      have hback := hundo (ds ++ es) e (List.prefix_refl _) x _ hx happly
      have hview : view s₁ = x := by
        have := h.callsFor hfirst
        rw [hback] at this
        exact (Except.ok.inj this).symm
      refine ih ?_ (hview ▸ hx) hrest
      intro cs c hcs
      exact hundo cs c (hcs.trans (List.prefix_append _ _))

/-- A plan from the shared beginning on leaves the state that the new path makes of the first one.
-/
theorem ActsOn.plan (h : ActsOn perform view act) {names : List String}
    {history path : List (Decision μ)} {k : Nat} {x₀ : τ} {s s' : σ}
    (htake : history.take k = path.take k) (hk : k ≤ history.length)
    (hundo : Undoes act history x₀) (hs : applyAll act history x₀ = .ok (view s))
    (hperf : Performs perform (Trail.plan names history path k) s s') :
    applyAll act path x₀ = .ok (view s') := by
  obtain ⟨s₁, hreverts, happlies⟩ := hperf.of_append
  rw [Nat.min_eq_left hk] at happlies
  rw [← List.take_append_drop k history] at hs hundo
  have hmid := h.reverts hundo hs hreverts
  rw [htake] at hmid
  have := h.applies hmid happlies
  rwa [List.take_append_drop] at this

/-! ### Moves on restrictions -/

def moveAct (a : Act) (d : Decision Move) (r : Restrictions) : Except Fault Restrictions :=
  Move.act a d.move r

theorem undoes_moveAct (path : List (Decision Move)) (r : Restrictions) :
    Undoes moveAct path r := fun _ _ _ _ _ _ happly => Move.act_revert_of_apply happly

theorem actsOn_stage {α : Type} [Scalar α] :
    ActsOn (Stage.perform (α := α)) Stage.restrictions moveAct where
  act_ok := by
    intro a d s s' h
    simp only [Stage.perform, Stage.act, Action.runOn] at h
    cases hact : Move.act a d.move s.restrictions with
    | error fault => simp [hact, bind, Except.bind] at h
    | ok r =>
        simp only [hact, bind, Except.bind, pure, Except.pure, Prod.mk.injEq, true_and] at h
        subst h
        exact hact
  notify_ok := by
    intro name a d s s' h
    simp only [Stage.perform, Stage.hear, Action.runOn] at h
    cases hhear : s.watch.hear name a d.move.shown with
    | error fault => simp [hhear, bind, Except.bind] at h
    | ok watch =>
        simp only [hhear, bind, Except.bind, pure, Except.pure, Prod.mk.injEq, true_and] at h
        subst h
        rfl

/-! ### Whole journeys -/

/-- What a trail is told to do: to go to a node, or back to its root. -/
inductive Leg (μ : Type) where
  | visit (stop : Stop μ)
  | home

def Leg.path : Leg μ → List (Decision μ)
  | .visit stop => stop.path
  | .home => []

def Leg.destination (root : Stop μ) : Leg μ → Stop μ
  | .visit stop => stop
  | .home => root

def go (perform : Call μ → Action σ Unit) : Leg μ → Trail μ → σ → Except Fault Unit × Trail μ × σ
  | .visit stop => transition perform stop
  | .home => restore perform

/-- Goes along legs in turn, up to the first that fails. -/
def travel (perform : Call μ → Action σ Unit) :
    List (Leg μ) → Trail μ → σ → Except Fault Unit × Trail μ × σ
  | [], t, s => (.ok (), t, s)
  | leg :: rest, t, s =>
      match go perform leg t s with
      | (.ok _, t, s) => travel perform rest t s
      | failed => failed

def setOut (root : Stop μ) (listeners : List String) : Trail μ :=
  { start root with listeners }

theorem foldl_addListener (names : List String) (t : Trail μ) :
    names.foldl addListener t = { t with listeners := t.listeners ++ names } := by
  induction names generalizing t with
  | nil => simp
  | cons name names ih => simp [ih, addListener]

def recording (perform : Call μ → Action σ Unit) (call : Call μ) :
    Action (List (Call μ) × σ) Unit := fun (calls, s) =>
  let (result, s) := (perform call).runOn s
  (result, calls ++ [call], s)

theorem recording_ok {call : Call μ} {w w' : List (Call μ) × σ}
    (h : (recording perform call).runOn w = (.ok (), w')) :
    w'.1 = w.1 ++ [call] ∧ (perform call).runOn w.2 = (.ok (), w'.2) := by
  have hresult : ((perform call).runOn w.2).1 = .ok () := congrArg Prod.fst h
  have hworld : (w.1 ++ [call], ((perform call).runOn w.2).2) = w' := congrArg Prod.snd h
  subst hworld
  exact ⟨rfl, Prod.ext hresult rfl⟩

theorem Performs.of_recording {calls : List (Call μ)} {w w' : List (Call μ) × σ}
    (h : Performs (recording perform) calls w w') :
    w'.1 = w.1 ++ calls ∧ Performs perform calls w.2 w'.2 := by
  induction h with
  | nil w => exact ⟨by simp, .nil w.2⟩
  | cons first _ ih =>
      obtain ⟨hlog, hcall⟩ := recording_ok first
      exact ⟨by simp [ih.1, hlog], .cons hcall ih.2⟩

/-- A leg makes the calls from the shared beginning on. -/
theorem Settled.go_ok {leg : Leg μ} {t t' : Trail μ} {s s' : σ} (settled : t.Settled)
    (hid : Decision.Identified (t.history ++ leg.path))
    (h : go perform leg t s = (.ok (), t', s')) :
    t' = { t with history := leg.path, current := leg.destination t.root } ∧
      ∃ k, Decision.LongestShared t.history leg.path k ∧
        Performs perform (Trail.plan t.listeners t.history leg.path k) s s' := by
  cases leg with
  | visit stop => exact settled.transition_ok hid h
  | home =>
      obtain ⟨ht, hperf⟩ := restore_ok h
      exact ⟨ht, 0, ⟨Nat.zero_le _, Nat.le_refl 0, rfl, fun j _ hj _ => hj⟩, hperf⟩

theorem Settled.go {leg : Leg μ} {t t' : Trail μ} {s s' : σ} (settled : t.Settled)
    (hid : Decision.Identified (t.history ++ leg.path))
    (h : Trail.go perform leg t s = (.ok (), t', s')) : t'.Settled := by
  obtain ⟨rfl, -⟩ := settled.go_ok hid h
  refine ⟨settled.consistent, ?_⟩
  cases leg with
  | visit stop => exact Or.inl rfl
  | home => exact Or.inr rfl

/-- What is known of a trail on its way: it is settled, its root and listeners are those it set out
with, nothing else is applied than what the legs brought, and the state is what the applied
decisions make of the first one. -/
structure OnTheWay (root : Stop μ) (listeners : List String) (legs : List (Leg μ))
    (view : σ → τ) (act : Act → Decision μ → τ → Except Fault τ) (x₀ : τ) (t : Trail μ) (s : σ) :
    Prop where
  settled : t.Settled
  root_eq : t.root = root
  listeners_eq : t.listeners = listeners
  known : t.history = [] ∨ ∃ leg ∈ legs, t.history = leg.path
  state : (∀ leg ∈ legs, Undoes act leg.path x₀) → applyAll act t.history x₀ = .ok (view s)

theorem OnTheWay.identified {root : Stop μ} {listeners : List String} {legs : List (Leg μ)}
    {x₀ : τ} {t : Trail μ} {s : σ} {leg : Leg μ}
    (way : OnTheWay root listeners legs view act x₀ t s) (hleg : leg ∈ legs)
    (hid : Decision.Identified (legs.flatMap Leg.path)) :
    Decision.Identified (t.history ++ leg.path) := by
  refine hid.mono fun d hd => List.mem_flatMap.mpr ?_
  rcases List.mem_append.mp hd with hd | hd
  · rcases way.known with hnone | ⟨old, hold, hpath⟩
    · simp [hnone] at hd
    · exact ⟨old, hold, hpath ▸ hd⟩
  · exact ⟨leg, hleg, hd⟩

theorem OnTheWay.go {root : Stop μ} {listeners : List String} {legs : List (Leg μ)} {x₀ : τ}
    {t t' : Trail μ} {s s' : σ} {leg : Leg μ} (way : OnTheWay root listeners legs view act x₀ t s)
    (acts : ActsOn perform view act) (hleg : leg ∈ legs)
    (hid : Decision.Identified (legs.flatMap Leg.path))
    (h : Trail.go perform leg t s = (.ok (), t', s')) :
    OnTheWay root listeners legs view act x₀ t' s' := by
  have hidleg := way.identified hleg hid
  have hsettled := way.settled.go hidleg h
  obtain ⟨rfl, k, hshared, hperf⟩ := way.settled.go_ok hidleg h
  refine ⟨hsettled, way.root_eq, way.listeners_eq, Or.inr ⟨leg, hleg, rfl⟩, fun hundo => ?_⟩
  refine acts.plan (hshared.take_eq hidleg) hshared.le_left ?_ (way.state hundo) hperf
  rcases way.known with hnone | ⟨old, hold, hpath⟩
  · intro ds d hprefix
    simp [hnone] at hprefix
  · exact hpath ▸ hundo old hold

theorem OnTheWay.travel {root : Stop μ} {listeners : List String} {legs rest : List (Leg μ)}
    {x₀ : τ} {t t' : Trail μ} {s s' : σ} (way : OnTheWay root listeners legs view act x₀ t s)
    (acts : ActsOn perform view act) (hrest : rest ⊆ legs)
    (hid : Decision.Identified (legs.flatMap Leg.path))
    (h : Trail.travel perform rest t s = (.ok (), t', s')) :
    OnTheWay root listeners legs view act x₀ t' s' := by
  induction rest generalizing t s with
  | nil =>
      simp only [Trail.travel, Prod.mk.injEq, true_and] at h
      obtain ⟨rfl, rfl⟩ := h
      exact way
  | cons leg rest ih =>
      unfold Trail.travel at h
      split at h
      · rename_i t₁ s₁ hgo
        have hleg : leg ∈ legs := hrest List.mem_cons_self
        exact ih (way.go acts hleg hid hgo) (fun l hl => hrest (List.mem_cons_of_mem _ hl)) h
      · rename_i failed hnot
        exact absurd h (hnot () t' s')

theorem onTheWay_setOut (root : Stop μ) (listeners : List String) (legs : List (Leg μ))
    (view : σ → τ) (act : Act → Decision μ → τ → Except Fault τ) (s : σ) :
    OnTheWay root listeners legs view act (view s) (setOut root listeners) s :=
  ⟨⟨rfl, Or.inr rfl⟩, rfl, rfl, Or.inl rfl, fun _ => rfl⟩

/-- The calls act on nothing: the part of the world that is just a point. -/
theorem actsOn_unit (perform : Call μ → Action σ Unit) :
    ActsOn perform (fun _ => ()) (fun _ _ _ => .ok ()) :=
  ⟨fun _ => rfl, fun _ => rfl⟩

theorem ActsOn.recording (h : ActsOn perform view act) :
    ActsOn (recording perform) (fun w => view w.2) act :=
  ⟨fun hok => h.act_ok (recording_ok hok).2, fun hok => h.notify_ok (recording_ok hok).2⟩

/-- Whatever legs were travelled before, a leg ends with exactly its path applied; it takes back
what the history has beyond the shared beginning, the last decision first, and then applies the rest
of its path in order, each act followed by one notice to every registered listener. If taking back
undoes applying along the paths, the state is what the path makes of the state at the beginning. -/
theorem travel_law {root : Stop μ} {listeners : List String} {before : List (Leg μ)} {leg : Leg μ}
    {t t' : Trail μ} {calls calls' : List (Call μ)} {s₀ s s' : σ}
    (hid : Decision.Identified ((before ++ [leg]).flatMap Leg.path))
    (travelled : travel (Trail.recording perform) before (setOut root listeners) ([], s₀) =
      (.ok (), t, calls, s))
    (went : Trail.go (Trail.recording perform) leg t (calls, s) = (.ok (), t', calls', s')) :
    t'.history = leg.path ∧ t'.current = leg.destination root ∧
      (∃ k, Decision.LongestShared t.history leg.path k ∧
        calls' = calls ++ ((t.history.drop k).reverse.flatMap (callsFor listeners .revert) ++
          (leg.path.drop k).flatMap (callsFor listeners .apply))) ∧
      ∀ {τ : Type} (view : σ → τ) (act : Act → Decision μ → τ → Except Fault τ),
        ActsOn perform view act → (∀ l ∈ before ++ [leg], Undoes act l.path (view s₀)) →
          applyAll act leg.path (view s₀) = .ok (view s') := by
  have hsub : before ⊆ before ++ [leg] := List.subset_append_left _ _
  have hleg : leg ∈ before ++ [leg] := by simp
  have way := (onTheWay_setOut root listeners (before ++ [leg]) _ _ ([], s₀)).travel
    (actsOn_unit (Trail.recording perform)) hsub hid travelled
  obtain ⟨rfl, k, hshared, hperf⟩ := way.settled.go_ok (way.identified hleg hid) went
  refine ⟨rfl, by rw [way.root_eq], ⟨k, hshared, ?_⟩, ?_⟩
  · have hlog := hperf.of_recording.1
    rwa [way.listeners_eq, Trail.plan, Nat.min_eq_left hshared.le_left] at hlog
  · intro τ view act acts hundo
    have wayState := (onTheWay_setOut root listeners (before ++ [leg])
      (fun w : List (Call μ) × σ => view w.2) act ([], s₀)).travel acts.recording hsub hid travelled
    exact (wayState.go acts.recording hleg hid went).state hundo

/-- From one child of a node to the other: the shared decision stays. -/
theorem travel_law_siblings :
    let edge (u v : Int) : Edge := [.int u, .int v]
    let first : Decision Move := ⟨0, .fix (edge 0 1)⟩
    let second : Decision Move := ⟨1, .fix (edge 1 2)⟩
    let third : Decision Move := ⟨2, .remove (edge 1 2)⟩
    let stage : Stage Numeric.Extended := Stage.initial Watch.empty
    let down := travel (Trail.recording Stage.perform) [.visit ⟨1, [first, second]⟩]
      (setOut ⟨0, []⟩ ["ear"]) ([], stage)
    let across := Trail.go (Trail.recording Stage.perform) (.visit ⟨2, [first, third]⟩)
      down.2.1 (down.2.2.1, down.2.2.2)
    Decision.Identified [first, second, first, third] ∧ down.1 = .ok () ∧ across.1 = .ok () ∧
      across.2.1.history = [first, third] ∧ across.2.1.current.node = 2 ∧
      (∃ k, Decision.LongestShared down.2.1.history [first, third] k ∧
        across.2.2.1 = down.2.2.1 ++
          ((down.2.1.history.drop k).reverse.flatMap (callsFor ["ear"] .revert) ++
            ([first, third].drop k).flatMap (callsFor ["ear"] .apply))) ∧
      applyAll moveAct [first, third] stage.restrictions = .ok across.2.2.2.restrictions := by
  intro edge first second third stage down across
  have hid : Decision.Identified
      (([Leg.visit ⟨1, [first, second]⟩] ++ [Leg.visit ⟨2, [first, third]⟩]).flatMap Leg.path) := by
    unfold Decision.Identified
    decide
  have hdown : down.1 = .ok () := by decide +kernel
  have hacross : across.1 = .ok () := by decide +kernel
  have travelled : down = (.ok (), down.2.1, down.2.2.1, down.2.2.2) := by rw [← hdown]
  have went : across = (.ok (), across.2.1, across.2.2.1, across.2.2.2) := by rw [← hacross]
  obtain ⟨hhistory, hcurrent, hcalls, hstate⟩ := travel_law hid travelled went
  exact ⟨hid, hdown, hacross, hhistory,
    congrArg Stop.node hcurrent, hcalls,
    hstate Stage.restrictions moveAct actsOn_stage fun _ _ => undoes_moveAct _ _⟩

end Trail

end TourSearch
