import TourSearch.Proofs.Action
import TourSearch.Proofs.Trail
import Mathlib

/-!
Moves that fail. A move fails only through one of its calls, with the cause of that call. The calls
up to there were made, no others; the trail still counts as standing where it stood, and its history
is what was left of the old one, or what was reached of the new path (`Stranded`). From then on
every move is refused without a call, whatever else the trail is asked for (`failure_law`).
-/

namespace TourSearch

namespace Trail

variable {μ σ : Type} {perform : Call μ → Action σ Unit} {t t' : Trail μ} {s s' : σ}

/-! ### The call that fails -/

structure Interrupts (perform : Call μ → Action σ Unit) (calls : List (Call μ)) (s : σ)
    (made : List (Call μ)) (call : Call μ) (fault : Fault) (s' : σ) : Prop where
  begins : made ++ [call] <+: calls
  fails : ∃ s₁, Performs perform made s s₁ ∧ (perform call).Fails s₁ fault s'

variable {calls made : List (Call μ)} {call : Call μ} {fault : Fault}

/-- The call that fails is noted like those before it. -/
theorem Interrupts.carryOut_eq (h : Interrupts perform calls s made call fault s') (t : Trail μ) :
    carryOut perform calls t s =
      (.error fault, { (made ++ [call]).foldl note t with consistent := false }, s') := by
  obtain ⟨⟨rest, rfl⟩, s₁, hmade, hcall⟩ := h
  induction hmade generalizing t with
  | nil s =>
      simp only [List.nil_append, List.singleton_append, carryOut, show _ = _ from hcall]
      rfl
  | cons first _ ih => simp only [List.cons_append, carryOut, first, ih _ hcall, List.foldl_cons]

theorem exists_interrupts (h : carryOut perform calls t s = (.error fault, t', s')) :
    ∃ made call, Interrupts perform calls s made call fault s' := by
  induction calls generalizing t s with
  | nil => simp [carryOut] at h
  | cons call rest ih =>
      simp only [carryOut] at h
      split at h
      · rename_i s₁ hcall
        obtain ⟨made, last, hbegins, s₂, hmade, hlast⟩ := ih h
        exact ⟨call :: made, last, by simpa using hbegins, s₂, .cons hcall hmade, hlast⟩
      · rename_i cause s₁ hcall
        simp only [Prod.mk.injEq, Except.error.injEq] at h
        obtain ⟨rfl, -, rfl⟩ := h
        exact ⟨[], call, by simp, s, .nil s, hcall⟩

/-- A trail that records the calls records the one that fails as well. -/
theorem Interrupts.recording (h : Interrupts perform calls s made call fault s')
    (log : List (Call μ)) :
    Interrupts (recording perform) calls (log, s) made call fault (log ++ made ++ [call], s') := by
  obtain ⟨hbegins, s₁, hmade, hcall⟩ := h
  refine ⟨hbegins, (log ++ made, s₁), ?_, ?_⟩
  · clear hbegins hcall
    induction hmade generalizing log with
    | nil s => simpa using Performs.nil (log, s)
    | @cons first rest s s₁ s₂ hfirst _ ih =>
        have hrecorded : (Trail.recording perform first).runOn (log, s) =
            (.ok (), log ++ [first], s₁) := by
          simp only [Action.runOn] at hfirst ⊢
          simp only [Trail.recording, Action.runOn, hfirst]
        have hrest := ih (log ++ [first])
        rw [List.append_assoc, List.singleton_append] at hrest
        exact .cons hrecorded hrest
  · simp only [Action.Fails, Action.runOn] at hcall ⊢
    simp only [Trail.recording, Action.runOn, hcall]

theorem Interrupts.of_recording {w w' : List (Call μ) × σ}
    (h : Interrupts (Trail.recording perform) calls w made call fault w') :
    Interrupts perform calls w.2 made call fault w'.2 := by
  obtain ⟨hbegins, w₁, hmade, hcall⟩ := h
  refine ⟨hbegins, w₁.2, hmade.of_recording.2, ?_⟩
  have hresult : ((perform call).runOn w₁.2).1 = .error fault := congrArg Prod.fst hcall
  have hworld : ((perform call).runOn w₁.2).2 = w'.2 := congrArg (fun result => result.2.2) hcall
  exact Prod.ext hresult hworld

/-! ### Where a move stops -/

/-- Where a move that keeps `kept` decisions of the history stops, by the calls that it has made: in
the midst of taking back a decision, which is off the history already, or in the midst of applying
one, which is on it already. -/
inductive Stranded (listeners : List String) (history path : List (Decision μ)) (kept : Nat) :
    List (Call μ) → List (Decision μ) → Prop where
  | reverting {j : Nat} {d : Decision μ} {begun : List (Call μ)} (beyond : kept ≤ j)
      (decision : history[j]? = some d) (started : begun ≠ [])
      (part : begun <+: callsFor listeners .revert d) :
      Stranded listeners history path kept
        ((history.drop (j + 1)).reverse.flatMap (callsFor listeners .revert) ++ begun)
        (history.take j)
  | applying {j : Nat} {d : Decision μ} {begun : List (Call μ)} (beyond : kept ≤ j)
      (decision : path[j]? = some d) (started : begun ≠ [])
      (part : begun <+: callsFor listeners .apply d) :
      Stranded listeners history path kept
        ((history.drop kept).reverse.flatMap (callsFor listeners .revert) ++
          ((path.take j).drop kept).flatMap (callsFor listeners .apply) ++ begun)
        (path.take (j + 1))

theorem plan_of_le (listeners : List String) {history : List (Decision μ)}
    (path : List (Decision μ)) {kept : Nat} (hkept : kept ≤ history.length) :
    plan listeners history path kept =
      (history.drop kept).reverse.flatMap (callsFor listeners .revert) ++
        (path.drop kept).flatMap (callsFor listeners .apply) := by
  rw [plan, Nat.min_eq_left hkept]

/-- A beginning of blocks ends within one of them. -/
theorem exists_block {β γ : Type} {f : β → List γ} {ds : List β} {calls : List γ}
    (hbegins : calls <+: ds.flatMap f) (hstarted : calls ≠ []) :
    ∃ (i : Nat) (d : β) (begun : List γ), ds[i]? = some d ∧ begun ≠ [] ∧ begun <+: f d ∧
      calls = (ds.take i).flatMap f ++ begun := by
  induction ds generalizing calls with
  | nil => exact absurd (List.prefix_nil.mp hbegins) hstarted
  | cons d ds ih =>
      rw [List.flatMap_cons] at hbegins
      rcases List.prefix_or_prefix_of_prefix hbegins (List.prefix_append (f d) _) with hin | hout
      · exact ⟨0, d, calls, rfl, hstarted, hin, by simp⟩
      · obtain ⟨rest, rfl⟩ := hout
        by_cases hrest : rest = []
        · subst hrest
          rw [List.append_nil] at hstarted ⊢
          exact ⟨0, d, f d, rfl, hstarted, List.prefix_rfl, by simp⟩
        · obtain ⟨i, e, begun, he, hbegun, hpart, rfl⟩ :=
            ih ((List.prefix_append_right_inj _).mp hbegins) hrest
          exact ⟨i + 1, e, begun, by simpa using he, hbegun, hpart, by simp⟩

/-- Of the calls for a decision, the first one alone changes the history. -/
theorem foldl_note_begun {listeners : List String} {a : Act} {d : Decision μ}
    {begun : List (Call μ)} (hpart : begun <+: callsFor listeners a d) (hstarted : begun ≠ [])
    (t : Trail μ) : begun.foldl note t = t.note (.act a d) := by
  obtain ⟨call, notices, rfl⟩ := List.exists_cons_of_ne_nil hstarted
  obtain ⟨rfl, hnotices⟩ := List.cons_prefix_cons.mp hpart
  obtain ⟨names, -, rfl⟩ := List.prefix_map_iff.mp hnotices
  exact foldl_note_notices names a d (t.note (.act a d))

theorem stranded_of_begins {listeners : List String} {path : List (Decision μ)} {kept : Nat}
    {calls : List (Call μ)} (hkept : kept ≤ t.history.length)
    (htake : t.history.take kept = path.take kept)
    (hbegins : calls <+: plan listeners t.history path kept) (hstarted : calls ≠ []) :
    ∃ history, calls.foldl note t = { t with history } ∧
      Stranded listeners t.history path kept calls history := by
  rw [plan_of_le _ _ hkept] at hbegins
  by_cases hin : calls <+: (t.history.drop kept).reverse.flatMap (callsFor listeners .revert)
  · obtain ⟨i, d, begun, hd, hbegun, hpart, rfl⟩ := exists_block hin hstarted
    -- The decisions are counted from the end of the history.
    have hi : i < t.history.length - kept := by
      simpa using (List.getElem?_eq_some_iff.mp hd).1
    obtain ⟨j, hj⟩ : ∃ j, t.history.length = i + j + 1 := ⟨t.history.length - i - 1, by omega⟩
    have hrest : (t.history.drop kept).reverse.take i = (t.history.drop (j + 1)).reverse := by
      rw [List.take_reverse, List.drop_drop, List.length_drop]
      congr 2
      omega
    have hdecision : t.history[j]? = some d := by
      rw [List.getElem?_reverse (by simpa using hi), List.getElem?_drop, List.length_drop] at hd
      rw [← hd]
      congr 1
      omega
    refine ⟨t.history.take j, ?_, hrest ▸ .reverting (by omega) hdecision hbegun hpart⟩
    rw [List.foldl_append, hrest, foldl_note_revert, foldl_note_begun hpart hbegun]
    simp only [note, List.length_reverse, List.length_drop, Trail.mk.injEq, and_true, true_and]
    rw [List.dropLast_eq_take, List.take_take, List.length_take]
    congr 1
    omega
  · obtain ⟨rest, rfl⟩ := (List.prefix_or_prefix_of_prefix hbegins
      (List.prefix_append _ _)).resolve_left hin
    have hsome : rest ≠ [] := fun hnone => hin (by simp [hnone])
    obtain ⟨i, d, begun, hd, hbegun, hpart, rfl⟩ :=
      exists_block ((List.prefix_append_right_inj _).mp hbegins) hsome
    rw [List.getElem?_drop] at hd
    have hlength := (List.getElem?_eq_some_iff.mp hd).1
    have happlied : (path.drop kept).take i = (path.take (kept + i)).drop kept := by
      rw [List.drop_take, Nat.add_sub_cancel_left]
    have hpath : path.take kept ++ (path.take (kept + i)).drop kept = path.take (kept + i) := by
      conv_rhs => rw [← List.take_append_drop kept (path.take (kept + i)), List.take_take,
        Nat.min_eq_left (Nat.le_add_right kept i)]
    refine ⟨path.take (kept + i + 1), ?_, ?_⟩
    · have hlen : t.history.length - (t.history.length - kept) = kept := by omega
      rw [List.foldl_append, List.foldl_append, foldl_note_revert, foldl_note_apply,
        foldl_note_begun hpart hbegun, List.length_reverse, List.length_drop, hlen, htake]
      simp only [note, Trail.mk.injEq, and_true, true_and]
      rw [happlied, hpath, List.take_add_one, hd]
      rfl
    · rw [happlied, ← List.append_assoc]
      exact .applying (Nat.le_add_right kept i) hd hbegun hpart

/-! ### One move -/

/-- The legs of a settled trail are plans from the shared beginning on. -/
theorem Settled.go_eq (settled : t.Settled) (perform : Call μ → Action σ Unit) (leg : Leg μ)
    (s : σ) : Trail.go perform leg t s = moveTo perform (leg.destination t.root)
      (plan t.listeners t.history leg.path (Decision.commonPrefixLength t.history leg.path))
      t s := by
  cases leg with
  | visit stop =>
      show moveTo perform stop _ t s = _
      rw [settled.plan_eq]
      rfl
  | home =>
      have hnone : Decision.commonPrefixLength t.history ([] : List (Decision μ)) = 0 := by
        cases t.history <;> rfl
      show moveTo perform t.root _ t s = moveTo perform t.root (plan _ _ [] _) t s
      rw [Leg.path, hnone]

/-- A move that is interrupted leaves the trail where it stood, stranded and inconsistent. -/
theorem Settled.go_interrupted (settled : t.Settled) {leg : Leg μ}
    (hid : Decision.Identified (t.history ++ leg.path))
    (interrupted : Interrupts perform (plan t.listeners t.history leg.path
      (Decision.commonPrefixLength t.history leg.path)) s made call fault s') :
    ∃ history, Trail.go perform leg t s =
        (.error fault, { t with history, consistent := false }, s') ∧
      Stranded t.listeners t.history leg.path (Decision.commonPrefixLength t.history leg.path)
        (made ++ [call]) history := by
  have hshared := Decision.longestShared_commonPrefixLength t.history leg.path
  obtain ⟨history, hnoted, hstranded⟩ := stranded_of_begins hshared.le_left (hshared.take_eq hid)
    interrupted.begins (by simp)
  refine ⟨history, ?_, hstranded⟩
  rw [settled.go_eq, moveTo, if_pos settled.consistent, interrupted.carryOut_eq, hnoted]

theorem Settled.exists_interrupts (settled : t.Settled) {leg : Leg μ}
    (hgo : Trail.go perform leg t s = (.error fault, t', s')) :
    ∃ made call, Interrupts perform (plan t.listeners t.history leg.path
      (Decision.commonPrefixLength t.history leg.path)) s made call fault s' := by
  rw [settled.go_eq, moveTo, if_pos settled.consistent] at hgo
  split at hgo
  · cases hgo
  · exact Trail.exists_interrupts hgo

/-! ### Whatever is asked for -/

inductive Request (μ : Type) where
  | move (leg : Leg μ)
  | enlist (name : String)
  | dismiss (name : String)

namespace Request

def path : Request μ → List (Decision μ)
  | .move leg => leg.path
  | .enlist _ | .dismiss _ => []

def listeners (names : List String) : Request μ → List String
  | .move _ => names
  | .enlist name => names ++ [name]
  | .dismiss name => names.erase name

def refusal : Request μ → Except Fault Unit
  | .move _ => .error .inconsistentTrail
  | .enlist _ | .dismiss _ => .ok ()

end Request

def answer (perform : Call μ → Action σ Unit) :
    Request μ → Trail μ → σ → Except Fault Unit × Trail μ × σ
  | .move leg => go perform leg
  | .enlist name => fun t s => (.ok (), t.addListener name, s)
  | .dismiss name => fun t s => (.ok (), t.removeListener name, s)

def serve (perform : Call μ → Action σ Unit) :
    List (Request μ) → Trail μ → σ → List (Except Fault Unit) × Trail μ × σ
  | [], t, s => ([], t, s)
  | request :: rest, t, s =>
      let (first, t, s) := answer perform request t s
      let (others, t, s) := serve perform rest t s
      (first :: others, t, s)

/-- An inconsistent trail refuses to move, and nothing is called. -/
theorem answer_of_inconsistent (perform : Call μ → Action σ Unit) (request : Request μ)
    (hinconsistent : t.consistent = false) (s : σ) : answer perform request t s =
      (request.refusal, { t with listeners := request.listeners t.listeners }, s) := by
  cases request with
  | move leg =>
      have hrefused : ∀ stop calls,
          moveTo perform stop calls t s = (.error .inconsistentTrail, t, s) := fun stop calls =>
        if_neg (by simp [hinconsistent])
      cases leg with
      | visit stop => exact hrefused stop _
      | home => exact hrefused t.root _
  | enlist name => rfl
  | dismiss name => rfl

theorem serve_of_inconsistent (perform : Call μ → Action σ Unit) (requests : List (Request μ))
    (hinconsistent : t.consistent = false) (s : σ) : serve perform requests t s =
      (requests.map Request.refusal,
        { t with listeners := requests.foldl Request.listeners t.listeners }, s) := by
  induction requests generalizing t with
  | nil => rfl
  | cons request rest ih =>
      rw [serve, answer_of_inconsistent perform request hinconsistent]
      simp only
      rw [ih (t := { t with listeners := request.listeners t.listeners }) hinconsistent]
      rfl

/-- What is known of a trail that has answered requests, if it is consistent: it is settled, and its
decisions are those that a request has brought. -/
structure Serving (requests : List (Request μ)) (t : Trail μ) : Prop where
  settled : t.Settled
  known : t.history = [] ∨ ∃ request ∈ requests, t.history = request.path

theorem Serving.identified {requests : List (Request μ)} (serving : Serving requests t)
    {request : Request μ} (hmem : request ∈ requests)
    (hid : Decision.Identified (requests.flatMap Request.path)) :
    Decision.Identified (t.history ++ request.path) := by
  have hbrought : ∀ r ∈ requests, r.path ⊆ requests.flatMap Request.path := fun r hr d hd =>
    List.mem_flatMap.mpr ⟨r, hr, hd⟩
  refine hid.mono (List.append_subset.mpr ⟨?_, hbrought request hmem⟩)
  rcases serving.known with hnone | ⟨old, hold, hpath⟩
  · rw [hnone]
    exact List.nil_subset _
  · rw [hpath]
    exact hbrought old hold

theorem Serving.answer {requests : List (Request μ)} (serving : Serving requests t)
    {request : Request μ} (hmem : request ∈ requests)
    (hid : Decision.Identified (requests.flatMap Request.path))
    (hconsistent : (Trail.answer perform request t s).2.1.consistent = true) :
    Serving requests (Trail.answer perform request t s).2.1 := by
  cases request with
  | enlist name | dismiss name => exact ⟨⟨serving.settled.consistent, serving.settled.applied⟩,
      serving.known⟩
  | move leg =>
      have hidleg := serving.identified hmem hid
      rcases hgo : Trail.go perform leg t s with ⟨fault | done, t', s'⟩
      · obtain ⟨made, call, hinterrupts⟩ := serving.settled.exists_interrupts hgo
        obtain ⟨history, heq, -⟩ := serving.settled.go_interrupted hidleg hinterrupts
        simp [Trail.answer, heq] at hconsistent
      · rw [Trail.answer, hgo]
        refine ⟨serving.settled.go hidleg hgo, Or.inr ⟨_, hmem, ?_⟩⟩
        obtain ⟨rfl, -⟩ := serving.settled.go_ok hidleg hgo
        rfl

theorem serving_of_serve {requests rest : List (Request μ)} (hrest : rest ⊆ requests)
    (hid : Decision.Identified (requests.flatMap Request.path))
    (hstart : t.consistent = true → Serving requests t)
    (hconsistent : (serve perform rest t s).2.1.consistent = true) :
    Serving requests (serve perform rest t s).2.1 := by
  induction rest generalizing t s with
  | nil => exact hstart hconsistent
  | cons request rest ih =>
      have hfirst : (answer perform request t s).2.1.consistent = true →
          Serving requests (answer perform request t s).2.1 := by
        intro hnext
        by_cases hbefore : t.consistent = true
        · exact (hstart hbefore).answer (hrest List.mem_cons_self) hid hnext
        · rw [answer_of_inconsistent perform request (by simpa using hbefore)] at hnext
          exact absurd hnext hbefore
      exact ih (fun r hr => hrest (List.mem_cons_of_mem _ hr)) hfirst hconsistent

/-- Whatever a trail was asked for before, a move that it makes while it is consistent fails just
when one of the calls of the move fails. The move ends with the cause of that call, after the calls
up to it. The trail stands where it stood, with the same listeners, and its history is a beginning
of the old one or of the new path: a decision that was being applied is on it, one that was being
taken back is off it. The trail is inconsistent, and remains so whatever it is asked for: every
further move is refused, without a call and without a change. -/
theorem failure_law {root : Stop μ} {before : List (Request μ)} {leg : Leg μ}
    {answers : List (Except Fault Unit)} {t : Trail μ} {log : List (Call μ)} {s₀ s : σ}
    (hid : Decision.Identified ((before ++ [Request.move leg]).flatMap Request.path))
    (served : serve (Trail.recording perform) before (start root) ([], s₀) = (answers, t, log, s))
    (hconsistent : t.consistent = true) :
    ∃ k, Decision.LongestShared t.history leg.path k ∧
      (∀ {made call fault s'},
        Interrupts perform ((t.history.drop k).reverse.flatMap (callsFor t.listeners .revert) ++
          (leg.path.drop k).flatMap (callsFor t.listeners .apply)) s made call fault s' →
        ∃ history, Stranded t.listeners t.history leg.path k (made ++ [call]) history ∧
          go (Trail.recording perform) leg t (log, s) =
            (.error fault, { t with history, consistent := false }, log ++ made ++ [call], s') ∧
          ∀ later, serve (Trail.recording perform) later { t with history, consistent := false }
              (log ++ made ++ [call], s') =
            (later.map Request.refusal, { t with
              history, consistent := false
              listeners := later.foldl Request.listeners t.listeners },
              log ++ made ++ [call], s')) ∧
      ∀ {fault t' w'}, go (Trail.recording perform) leg t (log, s) = (.error fault, t', w') →
        ∃ made call, Interrupts perform
          ((t.history.drop k).reverse.flatMap (callsFor t.listeners .revert) ++
            (leg.path.drop k).flatMap (callsFor t.listeners .apply)) s made call fault w'.2 := by
  have hleg : Request.move leg ∈ before ++ [Request.move leg] := by simp
  have serving : Serving (before ++ [Request.move leg]) t := by
    have hserved : Serving (before ++ [Request.move leg])
        (serve (Trail.recording perform) before (start root) ([], s₀)).2.1 :=
      serving_of_serve (List.subset_append_left before [Request.move leg]) hid
        (fun _ => ⟨⟨rfl, Or.inr rfl⟩, Or.inl rfl⟩) (by rw [served]; exact hconsistent)
    rwa [served] at hserved
  have hshared := Decision.longestShared_commonPrefixLength t.history leg.path
  refine ⟨_, hshared, ?_, ?_⟩
  · intro made call fault s' interrupted
    rw [← plan_of_le _ _ hshared.le_left] at interrupted
    obtain ⟨history, hgo, hstranded⟩ := serving.settled.go_interrupted
      (serving.identified hleg hid) (interrupted.recording log)
    exact ⟨history, hstranded, hgo, fun later => serve_of_inconsistent _ later rfl _⟩
  · intro fault t' w' hgo
    obtain ⟨made, call, hinterrupts⟩ := serving.settled.exists_interrupts hgo
    refine ⟨made, call, ?_⟩
    rw [← plan_of_le _ _ hshared.le_left]
    exact hinterrupts.of_recording

/-- On the way to the sibling of a node, a listener fails when the second decision is taken back.
The listener registered again after it is not told, and the first decision stays. -/
theorem failure_law_sour_listener :
    let first : Decision Deed := ⟨0, .probe "p" none⟩
    let second : Decision Deed := ⟨1, .probe "q" none⟩
    let third : Decision Deed := ⟨2, .probe "r" none⟩
    let bench : Workbench := ⟨none, (Watch.empty.define "ear" none).define "sour" (some .revert)⟩
    let before : List (Request Deed) := [.enlist "ear", .enlist "sour", .enlist "ear",
      .move (.visit ⟨1, [first, second]⟩)]
    let across : Leg Deed := .visit ⟨2, [first, third]⟩
    let served := serve (Trail.recording Workbench.perform) before (start ⟨0, []⟩) ([], bench)
    let moved := go (Trail.recording Workbench.perform) across served.2.1 served.2.2
    Decision.Identified ((before ++ [Request.move across]).flatMap Request.path) ∧
      served.2.1.consistent = true ∧
      moved.1 = .error (.listenerFailed "sour" .revert) ∧
      moved.2.1.history = [first] ∧ moved.2.1.current.node = 1 ∧
      moved.2.2.1 = served.2.2.1 ++ [.act .revert second, .notify "ear" .revert second] ++
        [.notify "sour" .revert second] ∧
      (serve (Trail.recording Workbench.perform) [.dismiss "sour", .move .home, .move across]
        moved.2.1 moved.2.2).1 =
          [.ok (), .error .inconsistentTrail, .error .inconsistentTrail] := by
  intro first second third bench before across served moved
  have hid : Decision.Identified ((before ++ [Request.move across]).flatMap Request.path) := by
    unfold Decision.Identified
    decide
  have hconsistent : served.2.1.consistent = true := by decide +kernel
  obtain ⟨k, hshared, hfails, -⟩ := failure_law hid
    (show serve (Trail.recording Workbench.perform) before (start ⟨0, []⟩) ([], bench) =
      (served.1, served.2.1, served.2.2.1, served.2.2.2) from rfl) hconsistent
  have hhistory : served.2.1.history = [first, second] := by decide +kernel
  have hk : k = 1 := by
    rw [hhistory] at hshared
    have hone := hshared.longest 1 (by decide) (by decide) rfl
    have htwo := hshared.le_left
    by_contra hne
    obtain rfl : k = 2 := by
      simp only [List.length_cons, List.length_nil] at htwo
      omega
    exact absurd hshared.agree (by decide)
  subst hk
  have interrupted : Interrupts Workbench.perform
      ((served.2.1.history.drop 1).reverse.flatMap (callsFor served.2.1.listeners .revert) ++
        ([first, third].drop 1).flatMap (callsFor served.2.1.listeners .apply)) served.2.2.2
      [.act .revert second, .notify "ear" .revert second] (.notify "sour" .revert second)
      (.listenerFailed "sour" .revert) _ :=
    ⟨by decide +kernel, _, .cons (Prod.ext (by decide +kernel) rfl)
      (.cons (Prod.ext (by decide +kernel) rfl) (.nil _)), Prod.ext (by decide +kernel) rfl⟩
  obtain ⟨history, -, hmoved, hlater⟩ := hfails interrupted
  have hgone : moved = _ := hmoved
  refine ⟨hid, hconsistent, by rw [hgone], by decide +kernel, by decide +kernel, by rw [hgone], ?_⟩
  rw [hgone]
  exact congrArg Prod.fst (hlater _)

end Trail

end TourSearch
