import TourSearch.Proofs.Action
import TourSearch.Proofs.Restrictions
import Mathlib

/-!
Restrictions as a state that is changed in place. A call checks first and changes then, so one that
is refused leaves everything as it was (`Change.perform_runOn` says that this is what the functions
on restrictions compute). No edge is ever fixed and forbidden at once, and decisions that were
applied one after the other are taken back in reverse order (`Change.strict_and_reversible`).
-/

namespace TourSearch

/-- Edges with two ends are the same undirected edge when they have the same ends, in whichever
order and whatever follows them. -/
theorem Edge.key_eq_key_iff {u v a b : Vertex} {rest rest' : List Vertex} :
    Edge.key (u :: v :: rest) = Edge.key (a :: b :: rest') ↔
      (u = a ∧ v = b) ∨ (u = b ∧ v = a) := by
  have hmem : ∀ (x y z : Vertex) (l : List Vertex), z ∈ Edge.key (x :: y :: l) ↔ z = x ∨ z = y := by
    simp [Edge.key]
  constructor
  · intro heq
    have hu : u = a ∨ u = b := (hmem a b u rest').mp (heq ▸ (hmem u v u rest).mpr (.inl rfl))
    have hv : v = a ∨ v = b := (hmem a b v rest').mp (heq ▸ (hmem u v v rest).mpr (.inr rfl))
    have ha : a = u ∨ a = v := (hmem u v a rest).mp (heq ▸ (hmem a b a rest').mpr (.inl rfl))
    have hb : b = u ∨ b = v := (hmem u v b rest).mp (heq ▸ (hmem a b b rest').mpr (.inr rfl))
    grind
  · intro hends
    apply SortedSet.ext_mem
    intro z
    rw [hmem, hmem]
    rcases hends with ⟨rfl, rfl⟩ | ⟨rfl, rfl⟩
    · exact Iff.rfl
    · exact or_comm

theorem SortedSet.nodup_members {α : Type} [Precedence α] (s : SortedSet α) : s.members.Nodup :=
  s.ordered.imp Precedence.ne_of_before

namespace Restrictions

/-- No edge is fixed and forbidden at once. -/
def Apart (r : Restrictions) : Prop := ∀ k ∈ r.fixed, k ∉ r.forbidden

def keys (r : Restrictions) : Set VertexSet := {k | k ∈ r.fixed ∨ k ∈ r.forbidden}

theorem Apart.ncard_keys {r : Restrictions} (h : r.Apart) : r.keys.ncard = r.size := by
  have hnodup : (r.fixed.members ++ r.forbidden.members).Nodup :=
    r.fixed.nodup_members.append r.forbidden.nodup_members h
  have hkeys : r.keys = ↑(r.fixed.members ++ r.forbidden.members).toFinset := by
    ext k
    simp [keys, SortedSet.mem_def]
  rw [hkeys, Set.ncard_coe_finset, List.toFinset_card_of_nodup hnodup, List.length_append]
  rfl

end Restrictions

/-! ### Changes -/

/-- A call that changes restrictions. -/
inductive Change where
  | fix (e : Edge)
  | unfix (e : Edge)
  | forbid (e : Edge)
  | unforbid (e : Edge)
  | clear
  deriving DecidableEq, Repr

def Move.change : Act → Move → Change
  | .apply, .fix e => .fix e
  | .revert, .fix e => .unfix e
  | .apply, .remove e => .forbid e
  | .revert, .remove e => .unforbid e

namespace Change

variable {r r' : Restrictions} {c : Change} {fault : Fault}

def guarded (test : Restrictions → Bool) (fault : Fault) (change : Restrictions → Restrictions) :
    Action Restrictions Unit := do
  let r ← get
  if test r then modify change else throw fault

def perform : Change → Action Restrictions Unit
  | .fix e => guarded (fun r => !r.isRestricted e) (.alreadyRestricted e) fun r =>
      { r with fixed := r.fixed.insert e.key }
  | .unfix e => guarded (fun r => r.isFixed e) (.notFixed e) fun r =>
      { r with fixed := r.fixed.erase e.key }
  | .forbid e => guarded (fun r => !r.isRestricted e) (.alreadyRestricted e) fun r =>
      { r with forbidden := r.forbidden.insert e.key }
  | .unforbid e => guarded (fun r => r.isForbidden e) (.notForbidden e) fun r =>
      { r with forbidden := r.forbidden.erase e.key }
  | .clear => do
      modify fun r => { r with fixed := SortedSet.empty }
      modify fun r => { r with forbidden := SortedSet.empty }

/-- What a change makes of restrictions. -/
def outcome : Change → Restrictions → Except Fault Restrictions
  | .fix e, r => r.fix e
  | .unfix e, r => r.unfix e
  | .forbid e, r => r.forbid e
  | .unforbid e, r => r.unforbid e
  | .clear, _ => .ok Restrictions.empty

theorem outcome_change (a : Act) (m : Move) (r : Restrictions) :
    (m.change a).outcome r = Move.act a m r := by
  cases a <;> cases m <;> rfl

theorem guarded_runOn (test : Restrictions → Bool) (fault : Fault)
    (change : Restrictions → Restrictions) (r : Restrictions) :
    (guarded test fault change).runOn r =
      if test r then (.ok (), change r) else (.error fault, r) := by
  cases htest : test r with
  | false =>
      have hfails : (guarded test fault change).Fails r fault r := by simp [guarded, htest]
      exact hfails
  | true =>
      have hgives : (guarded test fault change).Gives r () (change r) := by simp [guarded, htest]
      exact hgives

theorem perform_runOn (c : Change) (r : Restrictions) :
    c.perform.runOn r = match c.outcome r with
      | .ok r' => (.ok (), r')
      | .error fault => (.error fault, r) := by
  cases c with
  | fix e =>
      rw [perform, guarded_runOn, outcome, Restrictions.fix]
      cases r.isRestricted e <;> rfl
  | unfix e =>
      rw [perform, guarded_runOn, outcome, Restrictions.unfix]
      cases r.isFixed e <;> rfl
  | forbid e =>
      rw [perform, guarded_runOn, outcome, Restrictions.forbid]
      cases r.isRestricted e <;> rfl
  | unforbid e =>
      rw [perform, guarded_runOn, outcome, Restrictions.unforbid]
      cases r.isForbidden e <;> rfl
  | clear => rfl

theorem gives_perform {u : Unit} : c.perform.Gives r u r' ↔ c.outcome r = .ok r' := by
  rw [Action.Gives, perform_runOn]
  cases c.outcome r <;> simp

theorem fails_perform : c.perform.Fails r fault r' ↔ c.outcome r = .error fault ∧ r = r' := by
  rw [Action.Fails, perform_runOn]
  cases c.outcome r <;> simp

/-- A change is refused as a conflict. -/
theorem isConflict_of_outcome (h : c.outcome r = .error fault) : fault.IsConflict := by
  cases c with
  | fix e => exact Move.isConflict_of_act (a := .apply) (m := .fix e) h
  | unfix e => exact Move.isConflict_of_act (a := .revert) (m := .fix e) h
  | forbid e => exact Move.isConflict_of_act (a := .apply) (m := .remove e) h
  | unforbid e => exact Move.isConflict_of_act (a := .revert) (m := .remove e) h
  | clear => cases h

/-- Nothing is fixed that is forbidden, nor forbidden that is fixed. -/
theorem apart_of_outcome (hr : r.Apart) (h : c.outcome r = .ok r') : r'.Apart := by
  cases c with
  | fix e =>
      obtain ⟨-, hforbidden, rfl⟩ := (Move.act_apply_eq_ok (m := .fix e)).mp h
      intro k hk
      rcases SortedSet.mem_insert.mp hk with rfl | hk
      · exact hforbidden
      · exact hr k hk
  | unfix e =>
      rw [outcome, Restrictions.unfix] at h
      split at h
      · obtain rfl := Except.ok.inj h
        exact fun k hk => hr k (SortedSet.mem_erase.mp hk).1
      · cases h
  | forbid e =>
      obtain ⟨hfixed, -, rfl⟩ := (Move.act_apply_eq_ok (m := .remove e)).mp h
      intro k hk hk'
      rcases SortedSet.mem_insert.mp hk' with rfl | hk'
      · exact hfixed hk
      · exact hr k hk hk'
  | unforbid e =>
      rw [outcome, Restrictions.unforbid] at h
      split at h
      · obtain rfl := Except.ok.inj h
        exact fun k hk hk' => hr k hk (SortedSet.mem_erase.mp hk').1
      · cases h
  | clear =>
      obtain rfl := Except.ok.inj h
      exact fun k hk => absurd hk List.not_mem_nil

/-! ### Changes one after the other -/

def after (r : Restrictions) (changes : List Change) : Restrictions :=
  changes.foldl (fun r c => (c.perform.runOn r).2) r

theorem apart_after (hr : r.Apart) (changes : List Change) : (after r changes).Apart := by
  induction changes generalizing r with
  | nil => exact hr
  | cons c rest ih =>
      refine ih ?_
      show (c.perform.runOn r).2.Apart
      rw [perform_runOn]
      cases h : c.outcome r with
      | ok r' => exact apart_of_outcome hr h
      | error fault => exact hr

def performAll : List Change → Action Restrictions Unit
  | [] => pure ()
  | c :: rest => do
      c.perform
      performAll rest

theorem gives_performAll_cons {rest : List Change} :
    (performAll (c :: rest)).Gives r () r' ↔
      ∃ r₁, c.outcome r = .ok r₁ ∧ (performAll rest).Gives r₁ () r' := by
  simp [performAll, gives_perform]

theorem gives_performAll_append {changes rest : List Change} :
    (performAll (changes ++ rest)).Gives r () r' ↔
      ∃ r₁, (performAll changes).Gives r () r₁ ∧ (performAll rest).Gives r₁ () r' := by
  induction changes generalizing r with
  | nil => simp [performAll]
  | cons c changes ih =>
      rw [List.cons_append, gives_performAll_cons]
      simp only [ih, gives_performAll_cons]
      tauto

/-- Decisions that were applied in turn are about different edges that were free, and they are taken
back in reverse order. -/
theorem reverts_of_applies {moves : List Move}
    (h : (performAll (moves.map (Move.change .apply))).Gives r () r') :
    (moves.map (·.edge.key)).Nodup ∧ (∀ m ∈ moves, m.edge.key ∉ r.keys) ∧
      (performAll (moves.reverse.map (Move.change .revert))).Gives r' () r := by
  induction moves generalizing r with
  | nil =>
      obtain ⟨-, rfl⟩ := Action.gives_pure.mp h
      exact ⟨List.nodup_nil, by simp, Action.gives_pure.mpr ⟨rfl, rfl⟩⟩
  | cons m rest ih =>
      obtain ⟨r₁, hfirst, hrest⟩ := gives_performAll_cons.mp h
      obtain ⟨hnodup, hfree, hback⟩ := ih hrest
      rw [outcome_change] at hfirst
      have hrevert := Move.act_revert_of_apply hfirst
      obtain ⟨hfixed, hforbidden, rfl⟩ := Move.act_apply_eq_ok.mp hfirst
      -- What is restricted before the first decision, and the edge of this decision, is restricted
      -- when the others are applied.
      have hgrows : ∀ k, k = m.edge.key ∨ k ∈ r.keys → k ∈ (m.restrict r).keys := by
        cases m <;> simp +contextual [Restrictions.keys, Move.restrict, Move.edge] <;> tauto
      refine ⟨?_, ?_, ?_⟩
      · rw [List.map_cons, List.nodup_cons]
        refine ⟨fun hmem => ?_, hnodup⟩
        obtain ⟨m', hm', heq⟩ := List.mem_map.mp hmem
        exact hfree m' hm' (hgrows _ (.inl heq))
      · intro m' hm'
        rcases List.mem_cons.mp hm' with rfl | hm'
        · exact fun hkey => hkey.elim hfixed hforbidden
        · exact fun hkey => hfree m' hm' (hgrows _ (.inr hkey))
      · rw [List.reverse_cons, List.map_append, gives_performAll_append]
        refine ⟨_, hback, gives_performAll_cons.mpr ⟨r, ?_, Action.gives_pure.mpr ⟨rfl, rfl⟩⟩⟩
        rw [outcome_change]
        exact hrevert

/-- After any changes, of which some may have been refused: no edge is fixed and forbidden at once,
and the size is the number of restricted edges. A change that is refused is a conflict and leaves
everything as it was. Decisions that can be applied in turn, wherever this begins, are about
different edges that are free there, and taking them back in reverse order ends where they began.
Edges count as different when they have not the same two ends, in whichever order. -/
theorem strict_and_reversible (changes : List Change) :
    let r := after Restrictions.empty changes
    (∀ k, ¬(k ∈ r.fixed ∧ k ∈ r.forbidden)) ∧
    {k | k ∈ r.fixed ∨ k ∈ r.forbidden}.ncard = r.size ∧
    (∀ (c : Change) (fault : Fault) (r' : Restrictions), c.perform.Fails r fault r' →
      fault.IsConflict ∧ r' = r) ∧
    (∀ (s s' : Restrictions) (moves : List Move),
      (performAll (moves.map (Move.change .apply))).Gives s () s' →
        (moves.map (·.edge.key)).Nodup ∧
        (∀ m ∈ moves, m.edge.key ∉ s.fixed ∧ m.edge.key ∉ s.forbidden) ∧
        (performAll (moves.reverse.map (Move.change .revert))).Gives s' () s) ∧
    ∀ (u v a b : Vertex) (rest rest' : List Vertex),
      Edge.key (u :: v :: rest) = Edge.key (a :: b :: rest') ↔
        (u = a ∧ v = b) ∨ (u = b ∧ v = a) := by
  intro r
  have hapart : r.Apart := apart_after (fun k hk => absurd hk List.not_mem_nil) changes
  refine ⟨fun k hk => hapart k hk.1 hk.2, hapart.ncard_keys, fun c fault r' hfails => ?_,
    fun s s' moves happlies => ?_, fun _ _ _ _ _ _ => Edge.key_eq_key_iff⟩
  · obtain ⟨houtcome, rfl⟩ := fails_perform.mp hfails
    exact ⟨isConflict_of_outcome houtcome, rfl⟩
  · obtain ⟨hnodup, hfree, hback⟩ := reverts_of_applies happlies
    exact ⟨hnodup, fun m hm => not_or.mp (hfree m hm), hback⟩

/-- One edge is fixed, refused in its other spelling and released in it again; another one stays
forbidden. -/
theorem strict_and_reversible_spellings :
    let r := after Restrictions.empty [.fix [.int 0, .int 1], .forbid [.int 1, .int 0],
      .forbid [.int 2, .int 1, .int 7], .unfix [.int 1, .int 0]]
    let moves : List Move := [.fix [.int 0, .int 1], .remove [.int 3, .int 2, .int 9]]
    let s : Restrictions := ⟨SortedSet.ofList [Edge.key [.int 1, .int 0]],
      SortedSet.ofList [Edge.key [.int 1, .int 2], Edge.key [.int 2, .int 3]]⟩
    {k | k ∈ r.fixed ∨ k ∈ r.forbidden}.ncard = 1 ∧
    (perform (.fix [.int 1, .int 2])).Fails r (.alreadyRestricted [.int 1, .int 2]) r ∧
    (Fault.alreadyRestricted [.int 1, .int 2]).IsConflict ∧
    (performAll (moves.map (Move.change .apply))).Gives r () s ∧
    (moves.map (·.edge.key)).Nodup ∧
    (performAll (moves.reverse.map (Move.change .revert))).Gives s () r := by
  intro r moves s
  obtain ⟨-, hsize, hrefused, hmoves, -⟩ := strict_and_reversible
    [.fix [.int 0, .int 1], .forbid [.int 1, .int 0], .forbid [.int 2, .int 1, .int 7],
      .unfix [.int 1, .int 0]]
  have hfails : (perform (.fix [.int 1, .int 2])).Fails r (.alreadyRestricted [.int 1, .int 2]) r :=
    rfl
  have happlies : (performAll (moves.map (Move.change .apply))).Gives r () s := rfl
  obtain ⟨hnodup, -, hreverts⟩ := hmoves r s moves happlies
  exact ⟨hsize, hfails, (hrefused _ _ _ hfails).1, happlies, hnodup, hreverts⟩

end Change

/-! ### Decisions from the beginning on -/

namespace Restrictions

inductive Attainable : Restrictions → Prop where
  | empty : Attainable empty
  | change {a : Act} {m : Move} {r r' : Restrictions} (before : Attainable r)
      (acts : Move.act a m r = .ok r') : Attainable r'

theorem Attainable.apart {r : Restrictions} (h : r.Attainable) : r.Apart := by
  induction h with
  | empty => exact fun k hk => absurd hk List.not_mem_nil
  | change _ acts ih => exact Change.apart_of_outcome ih ((Change.outcome_change _ _ _).trans acts)

end Restrictions

end TourSearch
