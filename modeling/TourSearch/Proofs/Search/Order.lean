import TourSearch.Proofs.Search.Turns
import Mathlib

/-!
The order in which a search explores its nodes. Best first, the bounds of the nodes rise from one to
the next, because no open node is below the last one taken up (`Beyond`). Breadth first, nodes are
explored in the order of their creation and hence level by level (`Layered`). Depth first, the nodes
below a node are explored one after the other: as long as some of them wait, they are deeper than
everything else (`Inside`), and once the search has left them it does not come back (`Left`). None
of this asks anything of the relaxation, whose values may fall from a node to its children.
-/

namespace TourSearch

open Numeric

namespace Search

variable {μ σ : Type} {config : SearchConfig Extended} {s : Solver Extended μ σ}
  {t t' : Tree Extended μ} {hand hand' : Option Handle} {rule : SelectionRule} {n h k : Nat}

/-! ### Best first -/

def Beyond (bound : Extended) (hand : Option Handle) (t : Tree Extended μ) : Prop :=
  ∀ k < t.records.size, (t.node k).isPending = true ∨ hand = some k → bound ≤ (t.node k).lowerBound

theorem Beyond.turn {bound : Extended} (hb : Beyond bound hand t) (ho : Graded hand t)
    (hturn : Turn rule t hand t' hand') : Beyond bound hand' t' := by
  cases hturn with
  | rest => exact hb
  | @take h _ takes =>
      intro k hk hopen
      rw [(takes.place_eq k).2]
      refine hb k (takes.size_eq ▸ hk) (Or.inl ?_)
      rcases hopen with hpending | hhand
      · exact (takes.pending_of hpending).2
      · exact Option.some.inj hhand ▸ takes.pending
  | @close h _ resolves =>
      intro k hk hopen
      have hpending : (t'.node k).isPending = true := hopen.resolve_right nofun
      by_cases hold : k < t.records.size
      · have hwaited := resolves.pending k hold hpending
        have hne : k ≠ h := by
          rintro rfl
          rw [ho.hand_not_pending] at hwaited
          cases hwaited
        rw [resolves.bound_eq k hold hne]
        exact hb k hold (Or.inl hwaited)
      · rw [(resolves.new k (Nat.le_of_not_lt hold) hk).2]
        exact Extended.le_trans (hb h ho.hand_lt (Or.inr rfl)) resolves.raised

/-- The node that is taken up has the least bound. -/
theorem Takes.beyond (takes : Takes .bestFirst t h t') (ho : Graded (some h) t') :
    Beyond (t'.node h).lowerBound (some h) t' := by
  rintro k hk (hpending | hhand)
  · rcases takes.first k (takes.size_eq ▸ hk) (takes.pending_of hpending).2 with hlt | ⟨-, hle⟩
    · exact absurd hlt (lt_irrefl _)
    · rw [(takes.place_eq h).2, (takes.place_eq k).2]
      exact hle
  · rw [Option.some.inj hhand]
    exact Extended.le_refl (ho.bounded k)

/-! ### Breadth first -/

structure Layered (hand : Option Handle) (t : Tree Extended μ) : Prop where
  mono : ∀ k l : Nat, k ≤ l → l < t.records.size → (t.node k).depth ≤ (t.node l).depth
  near : ∀ k l : Nat, k < t.records.size → (t.node k).isPending = true ∨ hand = some k →
    l < t.records.size → (t.node l).depth ≤ (t.node k).depth + 1
  oldest : ∀ h : Nat, hand = some h → ∀ k : Nat, k < t.records.size →
    (t.node k).isPending = true → h < k

/-- With ids as ranks the oldest node comes first. -/
theorem Takes.le_of_breadthFirst (takes : Takes .breadthFirst t h t') (ho : Graded hand t)
    (hk : k < t.records.size) (hpending : (t.node k).isPending = true) : h ≤ k := by
  have hids : (t.node h).id ≤ (t.node k).id := by
    rcases takes.first k hk hpending with hlt | ⟨heq, -⟩
    · exact le_of_lt hlt
    · exact le_of_eq heq
  rw [ho.rooted.id_eq h takes.known, ho.rooted.id_eq k hk] at hids
  exact Int.ofNat_le.mp hids

theorem Layered.turn (hl : Layered hand t) (ho : Graded hand t)
    (hturn : Turn .breadthFirst t hand t' hand') : Layered hand' t' := by
  cases hturn with
  | rest => exact hl
  | @take h _ takes =>
      refine ⟨fun k l hkl hlt => ?_, fun k l hk hopen hlt => ?_, fun h' hh' k hk hpending => ?_⟩
      · rw [takes.depth_eq, takes.depth_eq]
        exact hl.mono k l hkl (takes.size_eq ▸ hlt)
      · rw [takes.depth_eq, takes.depth_eq]
        refine hl.near k l (takes.size_eq ▸ hk) (Or.inl ?_) (takes.size_eq ▸ hlt)
        rcases hopen with hpending | hhand
        · exact (takes.pending_of hpending).2
        · exact Option.some.inj hhand ▸ takes.pending
      · obtain rfl := Option.some.inj hh'
        obtain ⟨hne, hwaited⟩ := takes.pending_of hpending
        have hle := takes.le_of_breadthFirst ho (takes.size_eq ▸ hk) hwaited
        exact Nat.lt_of_le_of_ne hle (Ne.symm hne)
  | @close h _ resolves =>
      have hlt := ho.hand_lt
      have hold : ∀ k < t.records.size, (t'.node k).depth = (t.node k).depth := fun k hk =>
        depth_of_place (resolves.place_eq k hk)
      have hnew : ∀ k, ¬k < t.records.size → k < t'.records.size →
          (t'.node k).depth = (t.node h).depth + 1 := fun k hge hk =>
        (resolves.new k (Nat.le_of_not_lt hge) hk).1.depth_eq
      refine ⟨fun k l hkl hl' => ?_, fun k l hk hopen hl' => ?_, nofun⟩
      · by_cases hlold : l < t.records.size
        · rw [hold k (hkl.trans_lt hlold), hold l hlold]
          exact hl.mono k l hkl hlold
        · rw [hnew l hlold hl']
          by_cases hkold : k < t.records.size
          · rw [hold k hkold]
            exact hl.near h k hlt (Or.inr rfl) hkold
          · rw [hnew k hkold (hkl.trans_lt hl')]
      · have hpending : (t'.node k).isPending = true := hopen.resolve_right nofun
        -- An open node is at least as deep as the one that is closed.
        have hdeep : (t.node h).depth ≤ (t'.node k).depth := by
          by_cases hkold : k < t.records.size
          · rw [hold k hkold]
            exact hl.mono h k (Nat.le_of_lt (hl.oldest h rfl k hkold
              (resolves.pending k hkold hpending))) hkold
          · rw [hnew k hkold hk]
            omega
        by_cases hlold : l < t.records.size
        · have hnear := hl.near h l hlt (Or.inr rfl) hlold
          rw [hold l hlold]
          omega
        · rw [hnew l hlold hl']
          omega

theorem layered_initial : Layered none (Tree.initial : Tree Extended μ) := by
  refine ⟨fun k l _ _ => ?_, fun k l _ _ _ => ?_, nofun⟩
  · rw [Tree.node_initial, Tree.node_initial]
  · rw [Tree.node_initial, Tree.node_initial]
    exact Int.le_add_one (le_refl _)

def Past (h : Nat) (t : Tree Extended μ) : Prop :=
  h < t.records.size ∧ ∀ k : Nat, k < t.records.size → (t.node k).isPending = true → h < k

theorem Past.turn (hp : Past h t) (hturn : Turn rule t hand t' hand') : Past h t' := by
  cases hturn with
  | rest => exact hp
  | take takes =>
      exact ⟨takes.size_eq ▸ hp.1, fun k hk hpending =>
        hp.2 k (takes.size_eq ▸ hk) (takes.pending_of hpending).2⟩
  | close resolves =>
      refine ⟨hp.1.trans_le resolves.size_le, fun k hk hpending => ?_⟩
      by_cases hold : k < t.records.size
      · exact hp.2 k hold (resolves.pending k hold hpending)
      · exact hp.1.trans_le (Nat.le_of_not_lt hold)

/-! ### Depth first -/

/-- The search is among the nodes below a node: those of them that wait are deeper than it, and all
others that wait are not. -/
structure Inside (n : Nat) (hand : Option Handle) (t : Tree Extended μ) : Prop where
  closed : (t.node n).isPending = false
  within : ∀ k < t.records.size, (t.node k).isPending = true → t.OnPath n k →
    (t.node n).depth < (t.node k).depth
  without : ∀ k < t.records.size, (t.node k).isPending = true → ¬t.OnPath n k →
    (t.node k).depth ≤ (t.node n).depth
  here : ∀ h : Nat, hand = some h → t.OnPath n h

structure Left (n : Nat) (hand : Option Handle) (t : Tree Extended μ) : Prop where
  closed : (t.node n).isPending = false
  without : ∀ k < t.records.size, (t.node k).isPending = true → ¬t.OnPath n k
  elsewhere : ∀ h : Nat, hand = some h → ¬t.OnPath n h

theorem Left.turn (hleft : Left n hand t) (ho' : Graded hand' t')
    (hturn : Turn rule t hand t' hand') : Left n hand' t' := by
  have hclosed := hturn.closed_of_closed hleft.closed
  cases hturn with
  | rest => exact hleft
  | @take h _ takes =>
      refine ⟨hclosed, fun k hk hpending => ?_, fun h' hh' => ?_⟩
      · rw [takes.onPath_iff]
        exact hleft.without k (takes.size_eq ▸ hk) (takes.pending_of hpending).2
      · obtain rfl := Option.some.inj hh'
        rw [takes.onPath_iff]
        exact hleft.without h takes.known takes.pending
  | @close h _ resolves =>
      refine ⟨hclosed, fun k hk hpending => ?_, nofun⟩
      by_cases hold : k < t.records.size
      · rw [Tree.onPath_of_place (resolves.place_eq k hold)]
        exact hleft.without k hold (resolves.pending k hold hpending)
      · obtain ⟨hbegets, -⟩ := resolves.new k (Nat.le_of_not_lt hold) hk
        rw [Tree.onPath_of_begets hbegets (ho'.rooted.id_eq k hk)]
        rintro (hon | rfl)
        · exact hleft.elsewhere h rfl hon
        · exact hold (lt_of_closed hleft.closed)

/-- Before a node is taken up, the search is about it at no time. -/
theorem Graded.not_onPath_of_pending (ho : Graded hand t) (hpending : (t.node n).isPending = true)
    (hk : k < t.records.size) (hne : n ≠ k) : ¬t.OnPath n k := fun hon => by
  have hclosed := (ho.closed n k hk hon hne).1
  rw [hpending] at hclosed
  cases hclosed

theorem Takes.depth_le (takes : Takes .depthFirst t h t') (hk : k < t.records.size)
    (hpending : (t.node k).isPending = true) : (t.node k).depth ≤ (t.node h).depth := by
  have hranks : -(t.node h).depth ≤ -(t.node k).depth := by
    rcases takes.first k hk hpending with hlt | ⟨heq, -⟩
    · exact le_of_lt hlt
    · exact le_of_eq heq
  omega

theorem Takes.inside (takes : Takes .depthFirst t n t') (ho : Graded hand t) :
    Inside n (some n) t' := by
  refine ⟨?_, fun k hk hpending hk' => ?_, fun k hk hpending _ => ?_, fun h hh => ?_⟩
  · rw [Bool.eq_false_iff]
    exact fun hpending => (takes.pending_of hpending).1 rfl
  · obtain ⟨hne, -⟩ := takes.pending_of hpending
    rw [takes.onPath_iff] at hk'
    exact absurd hk' (ho.not_onPath_of_pending takes.pending (takes.size_eq ▸ hk) (Ne.symm hne))
  · rw [takes.depth_eq, takes.depth_eq]
    exact takes.depth_le (takes.size_eq ▸ hk) (takes.pending_of hpending).2
  · obtain rfl := Option.some.inj hh
    rw [takes.onPath_iff]
    exact ho.rooted.onPath_self takes.known

/-- Once inside, the search stays there until nothing waits inside. -/
theorem Inside.turn (hin : Inside n hand t) (ho : Graded hand t) (ho' : Graded hand' t')
    (hturn : Turn .depthFirst t hand t' hand') : Inside n hand' t' ∨ Left n hand' t' := by
  have hclosed := hturn.closed_of_closed hin.closed
  have hn := lt_of_closed hin.closed
  cases hturn with
  | rest => exact Or.inl hin
  | @take h _ takes =>
      by_cases hhere : t.OnPath n h
      · refine Or.inl ⟨hclosed, fun k hk hpending hk' => ?_, fun k hk hpending hk' => ?_,
          fun h' hh' => ?_⟩
        · rw [takes.depth_eq, takes.depth_eq]
          exact hin.within k (takes.size_eq ▸ hk) (takes.pending_of hpending).2
            (takes.onPath_iff.mp hk')
        · rw [takes.depth_eq, takes.depth_eq]
          exact hin.without k (takes.size_eq ▸ hk) (takes.pending_of hpending).2
            fun hk'' => hk' (takes.onPath_iff.mpr hk'')
        · obtain rfl := Option.some.inj hh'
          exact takes.onPath_iff.mpr hhere
      · -- A node elsewhere is taken up, so nothing deeper is left.
        refine Or.inr ⟨hclosed, fun k hk hpending hk' => ?_, fun h' hh' => ?_⟩
        · have hk := takes.size_eq ▸ hk
          have hwaited := (takes.pending_of hpending).2
          have hdeeper := hin.within k hk hwaited (takes.onPath_iff.mp hk')
          have hfirst := takes.depth_le hk hwaited
          have houtside := hin.without h takes.known takes.pending hhere
          omega
        · obtain rfl := Option.some.inj hh'
          exact fun hh => hhere (takes.onPath_iff.mp hh)
  | @close h _ resolves =>
      have hdepth : ∀ k < t.records.size, (t'.node k).depth = (t.node k).depth := fun k hk =>
        depth_of_place (resolves.place_eq k hk)
      have hhere := hin.here h rfl
      refine Or.inl ⟨hclosed, fun k hk hpending hk' => ?_, fun k hk hpending hk' => ?_, nofun⟩
      · by_cases hold : k < t.records.size
        · rw [hdepth n hn, hdepth k hold]
          exact hin.within k hold (resolves.pending k hold hpending)
            ((Tree.onPath_of_place (resolves.place_eq k hold)).mp hk')
        · have hbelow := ho.rooted.depth_le_of_onPath (ho.inArena h ho.hand_lt) hhere
          rw [hdepth n hn, (resolves.new k (Nat.le_of_not_lt hold) hk).1.depth_eq]
          omega
      · by_cases hold : k < t.records.size
        · rw [hdepth n hn, hdepth k hold]
          exact hin.without k hold (resolves.pending k hold hpending)
            fun hk'' => hk' ((Tree.onPath_of_place (resolves.place_eq k hold)).mpr hk'')
        · obtain ⟨hbegets, -⟩ := resolves.new k (Nat.le_of_not_lt hold) hk
          rw [Tree.onPath_of_begets hbegets (ho'.rooted.id_eq k hk)] at hk'
          exact absurd (Or.inl hhere) hk'

/-- A node is pending, or the search is among the nodes below it, or has left them for good. -/
def Phased (n : Nat) (hand : Option Handle) (t : Tree Extended μ) : Prop :=
  (t.node n).isPending = true ∨ Inside n hand t ∨ Left n hand t

theorem Phased.turn (hp : Phased n hand t) (ho : Graded hand t) (ho' : Graded hand' t')
    (hturn : Turn .depthFirst t hand t' hand') : Phased n hand' t' := by
  rcases hp with hpending | hin | hleft
  · by_cases hstill : (t'.node n).isPending = true
    · exact Or.inl hstill
    · rw [Bool.not_eq_true] at hstill
      cases hturn with
      | rest =>
          rw [hpending] at hstill
          cases hstill
      | @take h _ takes =>
          have hnh : n = h := by
            by_contra hne
            rw [takes.node_eq, if_neg hne, hpending] at hstill
            cases hstill
          subst hnh
          exact Or.inr (Or.inl (takes.inside ho))
      | @close h _ resolves =>
          -- The node has been pruned, and there was nothing below it.
          have hnh : n ≠ h := by
            rintro rfl
            rw [ho.hand_not_pending] at hpending
            cases hpending
          refine Or.inr (Or.inr ⟨hstill, fun k hk hwaits hon => ?_, nofun⟩)
          have hnk : n ≠ k := by
            rintro rfl
            rw [hwaits] at hstill
            cases hstill
          by_cases hold : k < t.records.size
          · exact ho.not_onPath_of_pending hpending hold hnk
              ((Tree.onPath_of_place (resolves.place_eq k hold)).mp hon)
          · obtain ⟨hbegets, -⟩ := resolves.new k (Nat.le_of_not_lt hold) hk
            rw [Tree.onPath_of_begets hbegets (ho'.rooted.id_eq k hk), or_iff_left hnk] at hon
            exact ho.not_onPath_of_pending hpending ho.hand_lt hnh hon
  · exact Or.inr (hin.turn ho ho' hturn)
  · exact Or.inr (Or.inr (hleft.turn ho' hturn))

theorem phased_initial (n : Nat) : Phased n none (Tree.initial : Tree Extended μ) :=
  Or.inl (by rw [Tree.node_initial]; rfl)

/-! ### Whole searches -/

theorem Turn.place_eq (hturn : Turn rule t hand t' hand') (hlt : k < t.records.size) :
    k < t'.records.size ∧ (t'.node k).place = (t.node k).place := by
  cases hturn with
  | rest => exact ⟨hlt, rfl⟩
  | take takes => exact ⟨takes.size_eq ▸ hlt, (takes.place_eq k).1⟩
  | close resolves => exact ⟨hlt.trans_le resolves.size_le, resolves.place_eq k hlt⟩

section Orbit

variable {i j l : Nat} {x y : Place Extended × Run Extended μ σ} {run run' : Run Extended μ σ}

theorem orbit_place (hafter : KeepsTree s.problem) (hij : i ≤ j)
    (hi : orbit s.problem config (outset s) i = some x)
    (hj : orbit s.problem config (outset s) j = some y) (hlt : k < x.2.tree.records.size) :
    k < y.2.tree.records.size ∧ (y.2.tree.node k).place = (x.2.tree.node k).place :=
  orbit_keeps hafter
    (P := fun _ t => k < t.records.size ∧ (t.node k).place = (x.2.tree.node k).place)
    (fun _ _ hturn hk => ⟨(hturn.place_eq hk.1).1, (hturn.place_eq hk.1).2.trans hk.2⟩)
    hij hi ⟨hlt, rfl⟩ hj

theorem orbit_bestFirst (hafter : KeepsTree s.problem) (hrule : s.queue.rule = .bestFirst)
    (hij : i ≤ j) (hi : orbit s.problem config (outset s) i = some (.moving h, run))
    (hj : orbit s.problem config (outset s) j = some (.moving k, run')) :
    (run.tree.node h).lowerBound ≤ (run'.tree.node k).lowerBound := by
  obtain ⟨_, _, -, -, takes⟩ := orbit_takes hafter hi
  rw [hrule] at takes
  have hbeyond := orbit_keeps hafter (fun ho _ hturn hb => Beyond.turn hb ho hturn) hij hi
    (takes.beyond (orbit_graded hafter hi).2) hj
  exact hbeyond k (orbit_graded hafter hj).2.hand_lt (Or.inr rfl)

theorem orbit_layered (hafter : KeepsTree s.problem) (hrule : s.queue.rule = .breadthFirst)
    (hi : orbit s.problem config (outset s) i = some x) : Layered x.1.hand x.2.tree :=
  orbit_keeps hafter (fun ho _ hturn hl => Layered.turn hl ho (hrule ▸ hturn)) (Nat.zero_le i)
    (x := (.between, outset s)) rfl layered_initial hi

theorem orbit_breadthFirst (hafter : KeepsTree s.problem) (hrule : s.queue.rule = .breadthFirst)
    (hij : i < j) (hi : orbit s.problem config (outset s) i = some (.moving h, run))
    (hj : orbit s.problem config (outset s) j = some (.moving k, run')) :
    (run.tree.node h).id < (run'.tree.node k).id ∧
      (run.tree.node h).depth ≤ (run'.tree.node k).depth := by
  have ho := (orbit_graded hafter hi).2
  have ho' := (orbit_graded hafter hj).2
  have hlt : h < k := by
    obtain ⟨m, before, rfl, hm, takes⟩ := orbit_takes hafter hj
    have hpast : Past h before.tree := orbit_keeps hafter (P := fun _ t => Past h t)
      (fun _ _ hturn hp => hp.turn hturn) (Nat.le_of_lt_succ hij) hi
      ⟨ho.hand_lt, (orbit_layered hafter hrule hi).oldest h rfl⟩ hm
    exact hpast.2 k takes.known takes.pending
  obtain ⟨hknown, hplace⟩ := orbit_place hafter (Nat.le_of_lt hij) hi hj ho.hand_lt
  refine ⟨?_, ?_⟩
  · rw [ho.rooted.id_eq h ho.hand_lt, ho'.rooted.id_eq k ho'.hand_lt]
    exact Int.ofNat_lt.mpr hlt
  · rw [← depth_of_place hplace]
    exact (orbit_layered hafter hrule hj).mono h k (Nat.le_of_lt hlt) ho'.hand_lt

theorem orbit_phased (hafter : KeepsTree s.problem) (hrule : s.queue.rule = .depthFirst) (n : Nat)
    (hi : orbit s.problem config (outset s) i = some x) : Phased n x.1.hand x.2.tree :=
  orbit_keeps hafter (fun ho ho' hturn hp => Phased.turn hp ho ho' (hrule ▸ hturn)) (Nat.zero_le i)
    (x := (.between, outset s)) rfl (phased_initial n) hi

/-- Between two nodes below a node, no other node is taken up. -/
theorem orbit_depthFirst (hafter : KeepsTree s.problem) (hrule : s.queue.rule = .depthFirst)
    {a b c : Nat} {first second third : Run Extended μ σ} (hij : i < j) (hjl : j < l)
    (hi : orbit s.problem config (outset s) i = some (.moving a, first))
    (hj : orbit s.problem config (outset s) j = some (.moving b, second))
    (hl : orbit s.problem config (outset s) l = some (.moving c, third))
    (ha : third.tree.Above n a) (hc : third.tree.Above n c) : third.tree.Above n b := by
  have ho₁ := (orbit_graded hafter hi).2
  have ho₂ := (orbit_graded hafter hj).2
  have ho₃ := (orbit_graded hafter hl).2
  obtain ⟨hknown, hplace⟩ := orbit_place hafter (Nat.le_of_lt (hij.trans hjl)) hi hl ho₁.hand_lt
  obtain ⟨hknown', hplace'⟩ := orbit_place hafter (Nat.le_of_lt hjl) hj hl ho₂.hand_lt
  rw [← ho₃.rooted.onPath_iff (ho₃.inArena a hknown), Tree.onPath_of_place hplace] at ha
  rw [← ho₃.rooted.onPath_iff (ho₃.inArena c ho₃.hand_lt)] at hc
  rw [← ho₃.rooted.onPath_iff (ho₃.inArena b hknown'), Tree.onPath_of_place hplace']
  have hclosed : (first.tree.node n).isPending = false := by
    by_cases hna : n = a
    · exact hna ▸ ho₁.hand_not_pending
    · exact (ho₁.closed n a ho₁.hand_lt ha hna).1
  have hclosed' : (second.tree.node n).isPending = false :=
    orbit_keeps hafter (P := fun _ t => (t.node n).isPending = false)
      (fun _ _ hturn hn => hturn.closed_of_closed hn) (Nat.le_of_lt hij) hi hclosed hj
  rcases orbit_phased hafter hrule n hj with hpending | hin | hleft
  · rw [show (second.tree.node n).isPending = true from hpending] at hclosed'
    cases hclosed'
  · exact hin.here b rfl
  · -- The search has left the nodes below and cannot come to one of them again.
    have hleft' := orbit_keeps hafter (fun _ ho' hturn hp => Left.turn hp ho' hturn)
      (Nat.le_of_lt hjl) hj hleft hl
    exact absurd hc (hleft'.elsewhere c rfl)

/-- The bound of a node does not change after it has been closed. -/
theorem Turn.bound_eq (hturn : Turn rule t hand t' hand')
    (hclosed : (t.node k).isPending = false) (hhand : hand ≠ some k) :
    hand' ≠ some k ∧ (t'.node k).lowerBound = (t.node k).lowerBound := by
  cases hturn with
  | rest => exact ⟨hhand, rfl⟩
  | @take h _ takes =>
      refine ⟨?_, (takes.place_eq k).2⟩
      rintro ⟨⟩
      rw [takes.pending] at hclosed
      cases hclosed
  | close resolves =>
      exact ⟨nofun, resolves.bound_eq k (lt_of_closed hclosed) fun heq => hhand (heq ▸ rfl)⟩

theorem orbit_child_bound (hafter : KeepsTree s.problem) {place : Place Extended} {c : Nat}
    (hij : i ≤ j) (hi : orbit s.problem config (outset s) i = some (.closed k, run))
    (hbranched : (run.tree.node k).status = .branched)
    (hj : orbit s.problem config (outset s) j = some (place, run'))
    (hchild : run'.tree.lookup? (run'.tree.node c).parent = some k) :
    (run.tree.node k).lowerBound ≤ (run'.tree.node c).lowerBound := by
  have ho' := (orbit_graded hafter hj).2
  have hclosed : (run.tree.node k).isPending = false := by
    rw [Node.isPending, hbranched]
    rfl
  obtain ⟨-, -, hbound⟩ := orbit_keeps hafter
    (P := fun hand t => (t.node k).isPending = false ∧ hand ≠ some k ∧
      (t.node k).lowerBound = (run.tree.node k).lowerBound)
    (fun _ _ hturn hk => ⟨hturn.closed_of_closed hk.1, (hturn.bound_eq hk.1 hk.2.1).1,
      (hturn.bound_eq hk.1 hk.2.1).2.trans hk.2.2⟩)
    hij hi ⟨hclosed, (Option.some_ne_none k).symm, rfl⟩ hj
  obtain ⟨-, hparent⟩ := ho'.rooted.found _ _ hchild
  have hlt : c < run'.tree.records.size := by
    by_contra hge
    rw [Tree.node_of_ge (Nat.le_of_not_lt hge)] at hparent
    cases hparent
  rw [← hbound]
  exact ho'.inherited k c hlt hparent

end Orbit

/-- The order of exploration in every search, whatever the relaxation answers. Best first, the
bounds that nodes have when they are taken up never fall. Breadth first, their ids rise and their
depths never fall. Depth first, no node is taken up between two nodes below `n` unless it is below
`n` itself. Under every rule a node has at no time a bound below the one that its parent had when it
was branched. -/
theorem exploration_order (s : Solver Extended μ σ) (hafter : KeepsTree s.problem)
    (timeLimit : Option Extended) (nodeLimit : Option Int) :
    let course := orbit s.problem (Solver.limited s.config timeLimit nodeLimit) (outset s)
    (s.queue.rule = .bestFirst → ∀ i j h k run run', i ≤ j → course i = some (.moving h, run) →
      course j = some (.moving k, run') →
        (run.tree.node h).lowerBound ≤ (run'.tree.node k).lowerBound) ∧
    (s.queue.rule = .breadthFirst → ∀ i j h k run run', i < j → course i = some (.moving h, run) →
      course j = some (.moving k, run') →
        (run.tree.node h).id < (run'.tree.node k).id ∧
          (run.tree.node h).depth ≤ (run'.tree.node k).depth) ∧
    (s.queue.rule = .depthFirst → ∀ i j l a b c first second third, i < j → j < l →
      course i = some (.moving a, first) → course j = some (.moving b, second) →
      course l = some (.moving c, third) → ∀ n, third.tree.Above n a → third.tree.Above n c →
        third.tree.Above n b) ∧
    (∀ i j k c run place run', i ≤ j → course i = some (.closed k, run) →
      (run.tree.node k).status = .branched → course j = some (place, run') →
      run'.tree.lookup? (run'.tree.node c).parent = some k →
        (run.tree.node k).lowerBound ≤ (run'.tree.node c).lowerBound) := by
  refine ⟨fun hrule i j h k run run' hij hi hj => ?_, fun hrule i j h k run run' hij hi hj => ?_,
    fun hrule i j l a b c first second third hij hjl hi hj hl n ha hc => ?_,
    fun i j k c run place run' hij hi hbranched hj hchild => ?_⟩
  · exact orbit_bestFirst hafter hrule hij hi hj
  · exact orbit_breadthFirst hafter hrule hij hi hj
  · exact orbit_depthFirst hafter hrule hij hjl hi hj hl ha hc
  · exact orbit_child_bound hafter hij hi hbranched hj hchild

/-- A relaxation whose value falls from the root to its first child, which is branched as well. All
other nodes are infeasible. -/
def sinkingRules : List (ScriptRule Extended) :=
  [⟨[], [], 0, 2, .finite 1, .infeasible⟩,
    ⟨[[.int 0, .int 1]], [], 0, 0, .finite 1, .solved (.finite 4)
      ⟨[([.int 0, .int 1], .finite 1), ([.int 1, .int 2], .finite (1 / 2)),
        ([.int 0, .int 2], .finite 1)]⟩⟩,
    ⟨[], [[.int 0, .int 1]], 0, 0, .finite 1, .infeasible⟩,
    ⟨[], [], 0, 0, .finite 1, .solved (.finite 5)
      ⟨[([.int 0, .int 1], .finite (1 / 2)), ([.int 1, .int 2], .finite 1),
        ([.int 0, .int 2], .finite 1)]⟩⟩]

def sinkingSolver (rule : SelectionRule) : Solver Extended Move (Stage Extended) :=
  { narrowSolver with
    problem := Script.problem ⟨sinkingRules, .dedupe, []⟩ (.edges EdgeBranching.standard)
    queue := OpenQueue.empty rule }

theorem exists_moving (s : Solver Extended μ σ) {i : Nat} {P : Run Extended μ σ → Prop}
    [DecidablePred P]
    (hthere : (orbit s.problem (Solver.limited s.config none none) (outset s) i).any
      (fun x => decide (x.1.spot = .moving h ∧ P x.2)) = true) :
    ∃ run, orbit s.problem (Solver.limited s.config none none) (outset s) i =
      some (.moving h, run) ∧ P run := by
  obtain ⟨⟨place, run⟩, hx, hfacts⟩ := (Option.any_eq_true _ _).mp hthere
  obtain ⟨hspot, hrun⟩ := of_decide_eq_true hfacts
  cases place with
  | moving k =>
      cases hspot
      exact ⟨run, hx, hrun⟩
  | between | solving | closing | closed | ended => cases hspot

/-- Best first and breadth first go from the first child of the root to the second before they come
to the children of the first one, and depth first it is the other way round. -/
theorem exploration_order_sinking :
    let course (rule : SelectionRule) :=
      orbit (sinkingSolver rule).problem (sinkingSolver rule).config (outset (sinkingSolver rule))
    (∃ run run', course .bestFirst 6 = some (.moving 1, run) ∧
      course .bestFirst 16 = some (.moving 3, run') ∧
      (run.tree.node 1).lowerBound = .finite 5 ∧
      (run.tree.node 1).lowerBound ≤ (run'.tree.node 3).lowerBound) ∧
    (∃ run run', course .breadthFirst 11 = some (.moving 2, run) ∧
      course .breadthFirst 16 = some (.moving 3, run') ∧
      (run.tree.node 2).id < (run'.tree.node 3).id ∧
      (run.tree.node 2).depth ≤ (run'.tree.node 3).depth) ∧
    (∃ first second third, course .depthFirst 6 = some (.moving 1, first) ∧
      course .depthFirst 11 = some (.moving 3, second) ∧
      course .depthFirst 16 = some (.moving 4, third) ∧
      third.tree.Above 1 4 ∧ third.tree.Above 1 3) := by
  have horder := fun rule =>
    exploration_order (sinkingSolver rule) (keepsTree_script _ _ _) none none
  refine ⟨?_, ?_, ?_⟩
  · obtain ⟨run, hi, hbound⟩ := exists_moving (sinkingSolver .bestFirst) (i := 6) (h := 1)
      (P := fun run => (run.tree.node 1).lowerBound = .finite 5) (by decide +kernel)
    obtain ⟨run', hj, -⟩ := exists_moving (sinkingSolver .bestFirst) (i := 16) (h := 3)
      (P := fun _ => True) (by decide +kernel)
    exact ⟨run, run', hi, hj, hbound,
      (horder _).1 rfl 6 16 1 3 run run' (by decide) hi hj⟩
  · obtain ⟨run, hi, -⟩ := exists_moving (sinkingSolver .breadthFirst) (i := 11) (h := 2)
      (P := fun _ => True) (by decide +kernel)
    obtain ⟨run', hj, -⟩ := exists_moving (sinkingSolver .breadthFirst) (i := 16) (h := 3)
      (P := fun _ => True) (by decide +kernel)
    exact ⟨run, run', hi, hj, (horder _).2.1 rfl 11 16 2 3 run run' (by decide) hi hj⟩
  · obtain ⟨first, hi, -⟩ := exists_moving (sinkingSolver .depthFirst) (i := 6) (h := 1)
      (P := fun _ => True) (by decide +kernel)
    obtain ⟨second, hj, -⟩ := exists_moving (sinkingSolver .depthFirst) (i := 11) (h := 3)
      (P := fun _ => True) (by decide +kernel)
    obtain ⟨third, hl, hparent⟩ := exists_moving (sinkingSolver .depthFirst) (i := 16) (h := 4)
      (P := fun run => run.tree.lookup? (run.tree.node 4).parent = some 1) (by decide +kernel)
    have habove : third.tree.Above 1 4 := .single hparent
    exact ⟨first, second, third, hi, hj, hl, habove, (horder _).2.2.1 rfl 6 11 16 1 3 4 first second
      third (by decide) (by decide) hi hj hl 1 .refl habove⟩

end Search

end TourSearch
