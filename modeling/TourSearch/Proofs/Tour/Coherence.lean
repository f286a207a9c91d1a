import TourSearch.Linear.Simplex
import TourSearch.Proofs.Search.Context
import TourSearch.Proofs.Tour.Solving
import TourSearch.Tour.Solve
import Mathlib

/-!
The bounds that a relaxation of tours keeps while a trail moves and programs are solved in turn. A
decision changes the restrictions behind the bounds, but the notices of it follow before anything is
solved, and a notice to the relaxation forgets the bounds. They are therefore never out of date when
a program is solved (`Interleaved.upToDate`), and the restrictions are those of the decisions
applied at that time (`Interleaved.onTheWay`).
-/

namespace TourSearch

namespace TourRelaxation

variable {α : Type} {r r' r'' : TourRelaxation α}

theorem act_eq_ok {a : Act} {m : Move} (hact : r.act a m = .ok r') :
    ∃ restrictions, Move.act a m r.restrictions = .ok restrictions ∧
      r' = { r with restrictions } := by
  obtain ⟨restrictions, hmove, hok⟩ := except_bind_eq_ok.mp hact
  exact ⟨restrictions, hmove, (Except.ok.inj hok).symm⟩

/-- What may happen to a relaxation between an act and the next program: cuts may be stored and the
bounds forgotten, but no bounds are taken. -/
structure Spared (r r' : TourRelaxation α) : Prop where
  tours : r'.tours = r.tours
  restrictions : r'.restrictions = r.restrictions
  bounds : r'.bounds = r.bounds ∨ r'.bounds = none

theorem Spared.refl (r : TourRelaxation α) : Spared r r := ⟨rfl, rfl, Or.inl rfl⟩

theorem spared_notice (r : TourRelaxation α) : Spared r r.notice := ⟨rfl, rfl, Or.inr rfl⟩

theorem Spared.trans (h : Spared r r') (h' : Spared r' r'') : Spared r r'' := by
  refine ⟨h'.tours.trans h.tours, h'.restrictions.trans h.restrictions, ?_⟩
  rcases h'.bounds with hsame | hnone
  · exact h.bounds.imp hsame.trans hsame.trans
  · exact Or.inr hnone

theorem Spared.bounds_eq_none (h : Spared r r') (hnone : r.bounds = none) : r'.bounds = none :=
  h.bounds.elim (fun hsame => hsame.trans hnone) id

end TourRelaxation

/-! ### A relaxation that hears of decisions -/

open TourRelaxation

variable {α σ : Type} {perform : Call Move → Action σ Unit} {store : σ → TourRelaxation α}
  {name : String} {names : List String} {w w' : σ}

structure Told (perform : Call Move → Action σ Unit) (name : String)
    (store : σ → TourRelaxation α) : Prop where
  act : ∀ {a d w w'}, (perform (.act a d)).Gives w () w' →
    (store w).act a d.move = .ok (store w')
  notify : ∀ {other a d w w'}, (perform (.notify other a d)).Gives w () w' →
    Spared (store w) (store w') ∧ (other = name → (store w').bounds = none)

theorem Told.actsOn (h : Told perform name store) :
    Trail.ActsOn perform (fun w => (store w).restrictions) Trail.moveAct where
  act_ok := by
    intro a d w w' hact
    obtain ⟨restrictions, hmove, hafter⟩ := act_eq_ok (h.act hact)
    rw [hafter]
    exact hmove
  notify_ok := fun hnotify => (h.notify hnotify).1.restrictions

theorem Told.notices (h : Told perform name store) {a : Act} {d : Decision Move}
    (hperforms : Trail.Performs perform (names.map fun other => .notify other a d) w w') :
    Spared (store w) (store w') ∧ (name ∈ names → (store w').bounds = none) := by
  induction names generalizing w with
  | nil =>
      cases hperforms
      exact ⟨.refl _, fun hmem => nomatch hmem⟩
  | cons other names ih =>
      rw [List.map_cons] at hperforms
      cases hperforms with
      | cons first others =>
          obtain ⟨hspared, hforgets⟩ := h.notify first
          obtain ⟨hrest, hmember⟩ := ih others
          refine ⟨hspared.trans hrest, fun hmem => ?_⟩
          rcases List.mem_cons.mp hmem with heq | hmem
          · exact hrest.bounds_eq_none (hforgets heq.symm)
          · exact hmember hmem

/-- A decision with its notices leaves no bounds behind, if the relaxation is told. -/
theorem Told.callsFor (h : Told perform name store) (hname : name ∈ names) {a : Act}
    {d : Decision Move} (hperforms : Trail.Performs perform (Trail.callsFor names a d) w w') :
    (store w').tours = (store w).tours ∧ (store w').bounds = none := by
  cases hperforms with
  | cons first others =>
      obtain ⟨restrictions, -, hafter⟩ := act_eq_ok (h.act first)
      obtain ⟨hspared, hforgets⟩ := h.notices others
      exact ⟨hspared.tours.trans (by rw [hafter]), hforgets hname⟩

/-! ### Moves and programs in turn -/

/-- The moves and programs of a trail that sets out in a world, all with success. The legs are those
of the moves so far. -/
inductive Interleaved (perform : Call Move → Action σ Unit) (solve : Action σ (Answer α))
    (root : Stop Move) (names : List String) (w₀ : σ) :
    List (Trail.Leg Move) → Trail Move → σ → Prop
  | setOut : Interleaved perform solve root names w₀ [] (Trail.setOut root names) w₀
  | moved {legs : List (Trail.Leg Move)} {t t' : Trail Move} {w w' : σ} {leg : Trail.Leg Move} :
      Interleaved perform solve root names w₀ legs t w →
      Trail.go perform leg t w = (.ok (), t', w') →
      Interleaved perform solve root names w₀ (legs ++ [leg]) t' w'
  | solved {legs : List (Trail.Leg Move)} {t : Trail Move} {w w' : σ} {answer : Answer α} :
      Interleaved perform solve root names w₀ legs t w → solve.Gives w answer w' →
      Interleaved perform solve root names w₀ legs t w'

variable [Scalar α] {solve : Action σ (Answer α)} {method : Linear.Program → Option (List Rat)}
  {root : Stop Move} {w₀ : σ} {legs : List (Trail.Leg Move)} {t : Trail Move}

/-- The restrictions are what the decisions of the trail make of the first ones. -/
theorem Interleaved.onTheWay (h : Interleaved perform solve root names w₀ legs t w)
    (htold : Told perform name store)
    (hsolve : ∀ {w answer w'}, solve.Gives w answer w' →
      (store w).solveBy method = (answer, store w'))
    {all : List (Trail.Leg Move)} (hall : legs ⊆ all)
    (hid : Decision.Identified (all.flatMap Trail.Leg.path)) :
    Trail.OnTheWay root names all (fun w => (store w).restrictions) Trail.moveAct
      (store w₀).restrictions t w := by
  induction h with
  | setOut => exact Trail.onTheWay_setOut root names all _ _ w₀
  | moved _ hgo ih =>
      rw [List.append_subset] at hall
      exact (ih hall.1).go htold.actsOn (hall.2 List.mem_cons_self) hid hgo
  | solved _ hgives ih =>
      have way := ih hall
      have hafter := congrArg Prod.snd (hsolve hgives)
      rw [solveBy_eq] at hafter
      refine ⟨way.settled, way.root_eq, way.listeners_eq, way.known, fun hundo => ?_⟩
      rw [← show _ = store _ from hafter]
      exact way.state hundo

/-- At a node, the decisions of its path are applied. -/
theorem Interleaved.history_eq (h : Interleaved perform solve root names w₀ legs t w)
    (htold : Told perform name store)
    (hsolve : ∀ {w answer w'}, solve.Gives w answer w' →
      (store w).solveBy method = (answer, store w')) (hroot : root.path = [])
    {all : List (Trail.Leg Move)} (hall : legs ⊆ all)
    (hid : Decision.Identified (all.flatMap Trail.Leg.path)) : t.history = t.current.path := by
  induction h with
  | setOut => exact hroot.symm
  | @moved _ _ _ _ _ leg before hgo ih =>
      rw [List.append_subset] at hall
      have way := before.onTheWay htold hsolve hall.1 hid
      obtain ⟨rfl, -⟩ := way.settled.go_ok
        (way.identified (hall.2 List.mem_cons_self) hid) hgo
      cases leg with
      | visit stop => rfl
      | home => exact (way.root_eq ▸ hroot).symm
  | solved _ _ ih => exact ih hall

theorem Interleaved.upToDate (h : Interleaved perform solve root names w₀ legs t w)
    (htold : Told perform name store) (hname : name ∈ names)
    (hsolve : ∀ {w answer w'}, solve.Gives w answer w' →
      (store w).solveBy method = (answer, store w'))
    (hid : Decision.Identified (legs.flatMap Trail.Leg.path)) (hstart : (store w₀).UpToDate) :
    (store w).UpToDate := by
  induction h with
  | setOut => exact hstart
  | @moved legs t t' w w' leg before hgo ih =>
      have hsub : legs ⊆ legs ++ [leg] := List.subset_append_left _ _
      have way := before.onTheWay htold hsolve hsub hid
      obtain ⟨-, k, -, hperforms⟩ := way.settled.go_ok (way.identified (by simp) hid) hgo
      rw [way.listeners_eq] at hperforms
      have hbefore := ih (hid.mono (by simp))
      exact hperforms.keeps_plan (P := fun w => (store w).UpToDate)
        (fun _ hcalls => upToDate_of_none (htold.callsFor hname hcalls).2) hbefore
  | solved _ hgives ih =>
      have hafter := (ih hid).solveBy method
      rwa [hsolve hgives] at hafter

def boundsOn (path : List (Decision Move)) (e : Edge) : Nat × Nat :=
  if e.key ∈ Trail.fixedKeys path then (1, 1)
  else if e.key ∈ Trail.forbiddenKeys path then (0, 0) else (0, 1)

theorem bounds_eq_boundsOn {path : List (Decision Move)} {s : Restrictions}
    (h : Trail.applyAll Trail.moveAct path Restrictions.empty = .ok s) (e : Edge) :
    s.bounds e = boundsOn path e := by
  obtain ⟨hfixed, hforbidden⟩ := Trail.mem_applyAll h e.key
  have hnone : e.key ∉ Restrictions.empty.fixed ∧ e.key ∉ Restrictions.empty.forbidden :=
    ⟨List.not_mem_nil, List.not_mem_nil⟩
  simp only [hnone, false_or] at hfixed hforbidden
  simp [Restrictions.bounds, Restrictions.isFixed, Restrictions.isForbidden, boundsOn, hfixed,
    hforbidden]

/-- However moves and programs follow one another, every answer is that to the program under the
bounds that the restrictions set at that time, if the relaxation is among the listeners. With no
restrictions at the beginning they are 1 for the edges that the applied decisions fix, 0 for those
that they remove, and 0 and 1 for all others. The applied decisions are those of the current node;
only at a root with decisions of its own there may be none. -/
theorem bounds_of_applied (htold : Told perform name store) (hname : name ∈ names)
    (hsolve : ∀ {w answer w'}, solve.Gives w answer w' →
      (store w).solveBy method = (answer, store w'))
    (hempty : (store w₀).restrictions = Restrictions.empty) (hstart : (store w₀).UpToDate)
    (hid : Decision.Identified (legs.flatMap Trail.Leg.path))
    (h : Interleaved perform solve root names w₀ legs t w) :
    (∀ {answer w'}, solve.Gives w answer w' →
      answer = (store w).answerTo method ((store w).program? (store w).currentBounds)) ∧
      (store w).takeBounds.1 = (store w).currentBounds ∧
      (store w).takeBounds.1 = (store w).tours.pairs.map (fun p =>
        boundsOn t.history (Instance.edge p.1 p.2)) ∧
      (root.path = [] → t.history = t.current.path) := by
  have hcurrent := h.upToDate htold hname hsolve hid hstart
  have hbounds := hcurrent.takeBounds_eq
  have way := h.onTheWay htold hsolve (List.Subset.refl legs) hid
  have hstate := way.state fun _ _ => Trail.undoes_moveAct _ _
  rw [hempty] at hstate
  refine ⟨fun {answer w'} hgives => ?_, hbounds, ?_, fun hroot => ?_⟩
  · have hanswer := (hsolve hgives).symm.trans (solveBy_eq method (store w))
    rw [hcurrent.next?_eq] at hanswer
    exact (Prod.mk.inj hanswer).1
  · rw [hbounds]
    exact List.map_congr_left fun p _ => bounds_eq_boundsOn hstate _
  · exact h.history_eq htold hsolve hroot (List.Subset.refl legs) hid

/-! ### From one child to the other -/

/-- A relaxation that hears the notices under its own name. -/
def attentive (call : Call Move) : Action (TourRelaxation Numeric.Extended) Unit := fun r =>
  match call with
  | .notify other .. => if other = listenerName then (.ok (), r.notice) else (.ok (), r)
  | .act .. => TourRelaxation.perform call r

theorem told_attentive : Told attentive listenerName id where
  act := by
    intro a d w w' h
    simp only [Action.Gives, Action.runOn, attentive, TourRelaxation.perform] at h
    cases hact : w.act a d.move with
    | error fault => simp [hact] at h
    | ok r =>
        simp only [hact, Prod.mk.injEq, true_and] at h
        rw [id, hact, h, id]
  notify := by
    intro other a d w w' h
    simp only [Action.Gives, Action.runOn, attentive] at h
    split at h <;> rename_i hother <;> obtain rfl := (Prod.mk.inj h).2
    · exact ⟨spared_notice w, fun _ => rfl⟩
    · exact ⟨.refl w, fun heq => absurd heq hother⟩

def solving : Action (TourRelaxation Numeric.Extended) (Answer Numeric.Extended) := fun r =>
  let (answer, r) := r.solveBy Linear.Program.simplex
  (.ok answer, r)

theorem gives_solving {answer : Answer Numeric.Extended} {r r' : TourRelaxation Numeric.Extended} :
    solving.Gives r answer r' ↔ r.solveBy Linear.Program.simplex = (answer, r') := by
  simp [Action.Gives, Action.runOn, solving, Prod.ext_iff]

/-- A program is solved at the first child, where an edge is fixed. At the second, where it is
removed, the bounds are those of the second. -/
theorem bounds_of_applied_siblings :
    let fixing : Decision Move := ⟨1, .fix [.int 1, .int 0]⟩
    let removing : Decision Move := ⟨2, .remove [.int 0, .int 1]⟩
    let start := ofInstance (⟨List.replicate 3 (List.replicate 3 (.finite 1)), "three"⟩ :
      Instance Numeric.Extended) Restrictions.empty
    ∃ t w, Interleaved attentive solving ⟨0, []⟩ ["ear", listenerName] start
        [.visit ⟨1, [fixing]⟩, .visit ⟨2, [removing]⟩] t w ∧
      Decision.Identified [fixing, removing] ∧ t.current.path = [removing] ∧
      w.takeBounds.1 = w.currentBounds ∧ w.takeBounds.1 = [(0, 0), (0, 1), (0, 1)] ∧
      (w.solveBy Linear.Program.simplex).1 =
        w.answerTo Linear.Program.simplex (w.program? [(0, 0), (0, 1), (0, 1)]) := by
  intro fixing removing start
  obtain ⟨⟨t₁, w₁⟩, ⟨t, w⟩, hdown, hacross, hhistory, htours⟩ :
      ∃ x y : Trail Move × TourRelaxation Numeric.Extended,
        Trail.go attentive (.visit ⟨1, [fixing]⟩) (Trail.setOut ⟨0, []⟩ ["ear", listenerName])
          start = (.ok (), x) ∧
        Trail.go attentive (.visit ⟨2, [removing]⟩) x.1 (x.2.solveBy Linear.Program.simplex).2 =
          (.ok (), y) ∧
        y.1.history = [removing] ∧ y.2.tours.pairs = [(0, 1), (0, 2), (1, 2)] :=
    ⟨_, _, Prod.ext (by decide +kernel) rfl, Prod.ext (by decide +kernel) rfl, by decide +kernel,
      by decide +kernel⟩
  have hcourse : Interleaved attentive solving ⟨0, []⟩ ["ear", listenerName] start
      [.visit ⟨1, [fixing]⟩, .visit ⟨2, [removing]⟩] t w :=
    ((Interleaved.setOut.moved hdown).solved (gives_solving.mpr rfl)).moved hacross
  have hid : Decision.Identified ([Trail.Leg.visit ⟨1, [fixing]⟩, .visit ⟨2, [removing]⟩].flatMap
      Trail.Leg.path) := by
    unfold Decision.Identified
    decide
  have hempty : start.restrictions = Restrictions.empty := rfl
  obtain ⟨hanswer, hcurrent, hbounds, hpath⟩ := bounds_of_applied told_attentive
    (by decide : listenerName ∈ ["ear", listenerName]) gives_solving.mp hempty
    (upToDate_of_none rfl) hid hcourse
  have hon : [(0, 1), (0, 2), (1, 2)].map (fun p : Nat × Nat =>
      boundsOn [removing] (Instance.edge p.1 p.2)) = [(0, 0), (0, 1), (0, 1)] := by decide +kernel
  rw [hhistory] at hbounds hpath
  have hused : w.takeBounds.1 = [(0, 0), (0, 1), (0, 1)] := hbounds.trans (htours ▸ hon)
  refine ⟨t, w, hcourse, hid, (hpath rfl).symm, hcurrent, hused, ?_⟩
  have hsame : w.takeBounds.1 = w.currentBounds := hcurrent
  rw [← hused, hsame]
  exact hanswer (gives_solving.mpr rfl)

end TourSearch
