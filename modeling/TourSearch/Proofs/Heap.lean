import TourSearch.Heap
import Mathlib

/-!
Binary heaps hold what was put in, and their least entry comes before all others. The test need not
order all values: it is enough that it orders those of a class to which the entries belong.

A sift is described by the pairs of places that are in order. While an entry moves up, only the pair
above it may be out of order; while it moves down, only the pairs below it. In both cases the
entries below the moving one are in order with the one above it.
-/

namespace TourSearch.Heap

variable {α : Type} {before : α → α → Bool} {P : α → Prop}

/-- On the values of a class, "not before" is a linear preorder. -/
structure Orders (before : α → α → Bool) (P : α → Prop) : Prop where
  asymm : ∀ {x y}, P x → P y → before x y = true → before y x = false
  trans : ∀ {x y z}, P x → P y → P z → before y x = false → before z y = false →
    before z x = false

def InOrder (before : α → α → Bool) (items : Array α) (i j : Nat) : Prop :=
  ∀ x y, items[i]? = some x → items[j]? = some y → before y x = false

def Ordered (before : α → α → Bool) (items : Array α) : Prop :=
  ∀ j, 0 < j → InOrder before items ((j - 1) / 2) j

def OrderedFrom (before : α → α → Bool) (k : Nat) (items : Array α) : Prop :=
  ∀ j, 0 < j → k ≤ (j - 1) / 2 → InOrder before items ((j - 1) / 2) j

theorem OrderedFrom.ordered {items : Array α} (h : OrderedFrom before 0 items) :
    Ordered before items :=
  fun j hj => h j hj (Nat.zero_le _)

def Within (P : α → Prop) (items : Array α) : Prop :=
  ∀ (i : Nat) (x : α), items[i]? = some x → P x

theorem within_iff {items : Array α} : Within P items ↔ ∀ x ∈ items.toList, P x := by
  constructor
  · intro h x hx
    obtain ⟨i, hi⟩ := List.mem_iff_getElem?.mp hx
    exact h i x (by simpa using hi)
  · intro h i x hx
    exact h x (List.mem_iff_getElem?.mpr ⟨i, by simpa using hx⟩)

theorem InOrder.trans (ho : Orders before P) {items : Array α} (hP : Within P items) {i j k : Nat}
    (hj : j < items.size) (hij : InOrder before items i j) (hjk : InOrder before items j k) :
    InOrder before items i k := by
  intro x z hx hz
  have hy : items[j]? = some items[j] := Array.getElem?_eq_getElem hj
  exact ho.trans (hP i x hx) (hP j _ hy) (hP k z hz) (hij x _ hx hy) (hjk _ z hy hz)

theorem getElem?_swap_left {items : Array α} {i j : Nat} (hi : i < items.size)
    (hj : j < items.size) : (items.swap i j)[i]? = some items[j] := by
  rw [Array.getElem?_swap]
  by_cases hij : j = i
  · subst hij
    simp
  · simp [hij]

theorem getElem?_swap_right {items : Array α} {i j : Nat} (hi : i < items.size)
    (hj : j < items.size) : (items.swap i j)[j]? = some items[i] := by
  rw [Array.getElem?_swap]
  simp

theorem getElem?_swap_other {items : Array α} {i j k : Nat} (hi : i < items.size)
    (hj : j < items.size) (hki : k ≠ i) (hkj : k ≠ j) :
    (items.swap i j)[k]? = items[k]? := by
  rw [Array.getElem?_swap, if_neg (Ne.symm hkj), if_neg (Ne.symm hki)]

theorem within_swap {items : Array α} (hP : Within P items) {i j : Nat} (hi : i < items.size)
    (hj : j < items.size) : Within P (items.swap i j) := by
  rw [within_iff] at hP ⊢
  intro x hx
  exact hP x ((Array.swap_perm hi hj).toList.mem_iff.mp hx)

/-! ### Moving up -/

/-- Only the pair above place `i` may be out of order. -/
structure UpReady (before : α → α → Bool) (items : Array α) (i : Nat) : Prop where
  others : ∀ j, 0 < j → j ≠ i → InOrder before items ((j - 1) / 2) j
  across : ∀ j, 0 < j → (j - 1) / 2 = i → 0 < i → InOrder before items ((i - 1) / 2) j

theorem UpReady.swap (ho : Orders before P) {items : Array α} (hP : Within P items) {i p : Nat}
    (hready : UpReady before items i) (hp : (i - 1) / 2 = p) (hpi : p < i) (hi : i < items.size)
    (hparent : p < items.size) (hlt : before items[i] items[p] = true) :
    UpReady before (items.swap i p) p := by
  have hxi : items[i]? = some items[i] := Array.getElem?_eq_getElem hi
  have hxp : items[p]? = some items[p] := Array.getElem?_eq_getElem hparent
  have hle : before items[p] items[i] = false := ho.asymm (hP i _ hxi) (hP p _ hxp) hlt
  have hup : InOrder before items i p := by
    intro x y hx hy
    rw [hxi] at hx
    rw [hxp] at hy
    rw [← Option.some.inj hx, ← Option.some.inj hy]
    exact hle
  have hswap_i := getElem?_swap_left hi hparent
  have hswap_p := getElem?_swap_right hi hparent
  refine ⟨fun j hj hjp => ?_, fun j hj hjpar hppos => ?_⟩
  · by_cases hji : j = i
    · subst hji
      rw [hp]
      intro x y hx hy
      rw [hswap_p] at hx
      rw [hswap_i] at hy
      rw [← Option.some.inj hx, ← Option.some.inj hy]
      exact hle
    · have hj' := getElem?_swap_other hi hparent hji hjp
      intro x y hx hy
      rw [hj'] at hy
      by_cases hpar : (j - 1) / 2 = i
      · rw [hpar, hswap_i] at hx
        exact hready.across j hj hpar (by omega) x y (by rw [hp, hxp]; exact hx) hy
      · by_cases hpar' : (j - 1) / 2 = p
        · -- The other child of the parent: through the old parent.
          rw [hpar', hswap_p, ← hxi] at hx
          have hpj := hready.others j hj hji
          rw [hpar'] at hpj
          exact hup.trans ho hP hparent hpj x y hx hy
        · rw [getElem?_swap_other hi hparent hpar hpar'] at hx
          exact hready.others j hj hji x y hx hy
  · have hgrand : InOrder before items ((p - 1) / 2) p := hready.others p hppos (by omega)
    intro x y hx hy
    rw [getElem?_swap_other hi hparent (by omega) (by omega)] at hx
    by_cases hji : j = i
    · rw [hji, hswap_i, ← hxp] at hy
      exact hgrand x y hx hy
    · rw [getElem?_swap_other hi hparent hji (by omega)] at hy
      have hpj := hready.others j hj hji
      rw [hjpar] at hpj
      exact hgrand.trans ho hP hparent hpj x y hx hy

theorem UpReady.ordered {items : Array α} {i : Nat} (hready : UpReady before items i)
    (hi : 0 < i → InOrder before items ((i - 1) / 2) i) : Ordered before items := by
  intro j hj
  by_cases hji : j = i
  · exact hji ▸ hi (hji ▸ hj)
  · exact hready.others j hj hji

theorem siftUp_perm (before : α → α → Bool) (items : Array α) (i : Nat) (hi : i < items.size) :
    (siftUp before items i hi).Perm items := by
  fun_induction siftUp before items i hi with
  | case1 => exact .rfl
  | case2 items i hi h0 parent hparent _ ih => exact ih.trans (Array.swap_perm hi hparent)
  | case3 => exact .rfl

theorem ordered_siftUp (ho : Orders before P) {items : Array α} (hP : Within P items) {i : Nat}
    (hi : i < items.size) (hready : UpReady before items i) :
    Ordered before (siftUp before items i hi) := by
  fun_induction siftUp before items i hi with
  | case1 items hi => exact hready.ordered fun hpos => absurd hpos (by omega)
  | case2 items i hi h0 parent hparent hlt ih =>
      exact ih (within_swap hP hi hparent)
        (hready.swap ho hP rfl (by omega) hi hparent hlt)
  | case3 items i hi h0 parent hparent hlt =>
      refine hready.ordered fun _ x y hx hy => ?_
      rw [Array.getElem?_eq_getElem hparent] at hx
      rw [Array.getElem?_eq_getElem hi] at hy
      rw [← Option.some.inj hx, ← Option.some.inj hy]
      simpa using hlt

/-! ### Moving down -/

/-- From place `k` on only the pairs below place `i` may be out of order. -/
structure DownReady (before : α → α → Bool) (items : Array α) (k i : Nat) : Prop where
  le : k ≤ i
  others : ∀ j, 0 < j → k ≤ (j - 1) / 2 → (j - 1) / 2 ≠ i →
    InOrder before items ((j - 1) / 2) j
  across : ∀ j, 0 < j → (j - 1) / 2 = i → 0 < i → k ≤ (i - 1) / 2 →
    InOrder before items ((i - 1) / 2) j

theorem firstChild?_eq_none {items : Array α} {i : Nat} (h : firstChild? before items i = none)
    {j : Nat} (hj : 0 < j) (hparent : (j - 1) / 2 = i) : items.size ≤ j := by
  unfold firstChild? at h
  split at h
  · split at h
    · split at h <;> cases h
    · cases h
  · omega

/-- The child that comes first is in order with both children. -/
theorem firstChild?_eq_some (ho : Orders before P) {items : Array α} (hP : Within P items) {i : Nat}
    {c : { c : Nat // i < c ∧ c < items.size }} (h : firstChild? before items i = some c) :
    (c.1 - 1) / 2 = i ∧ ∀ j, 0 < j → (j - 1) / 2 = i → j ≠ c.1 → InOrder before items c.1 j := by
  unfold firstChild? at h
  split at h
  · rename_i hl
    have hleft : items[2 * i + 1]? = some items[2 * i + 1] := Array.getElem?_eq_getElem hl
    split at h
    · rename_i hr
      have hright : items[2 * i + 2]? = some items[2 * i + 2] := Array.getElem?_eq_getElem hr
      split at h
      · rename_i hlt
        have hc : c.1 = 2 * i + 2 := by rw [← Option.some.inj h]
        rw [hc]
        refine ⟨by omega, fun j hj hparent hne => ?_⟩
        obtain rfl : j = 2 * i + 1 := by omega
        intro x y hx hy
        rw [hright] at hx
        rw [hleft] at hy
        rw [← Option.some.inj hx, ← Option.some.inj hy]
        exact ho.asymm (hP _ _ hright) (hP _ _ hleft) hlt
      · rename_i hlt
        have hc : c.1 = 2 * i + 1 := by rw [← Option.some.inj h]
        rw [hc]
        refine ⟨by omega, fun j hj hparent hne => ?_⟩
        obtain rfl : j = 2 * i + 2 := by omega
        intro x y hx hy
        rw [hleft] at hx
        rw [hright] at hy
        rw [← Option.some.inj hx, ← Option.some.inj hy]
        simpa using hlt
    · rename_i hr
      have hc : c.1 = 2 * i + 1 := by rw [← Option.some.inj h]
      rw [hc]
      refine ⟨by omega, fun j hj hparent hne x y _ hy => ?_⟩
      obtain rfl : j = 2 * i + 2 := by omega
      rw [Array.getElem?_eq_none (by omega)] at hy
      cases hy
  · cases h

theorem DownReady.swap (ho : Orders before P) {items : Array α} (hP : Within P items) {k i c : Nat}
    (hready : DownReady before items k i) (hparent : (c - 1) / 2 = i) (hic : i < c)
    (hi : i < items.size) (hc : c < items.size)
    (hfirst : ∀ j, 0 < j → (j - 1) / 2 = i → j ≠ c → InOrder before items c j)
    (hlt : before items[c] items[i] = true) : DownReady before (items.swap i c) k c := by
  have hxi : items[i]? = some items[i] := Array.getElem?_eq_getElem hi
  have hxc : items[c]? = some items[c] := Array.getElem?_eq_getElem hc
  have hswap_i := getElem?_swap_left hi hc
  have hswap_c := getElem?_swap_right hi hc
  have hki := hready.le
  refine ⟨by omega, fun j hj hkj hjc x y hx hy => ?_, fun j hj hjc hcpos _ x y hx hy => ?_⟩
  · by_cases hji : (j - 1) / 2 = i
    · rw [hji, hswap_i] at hx
      by_cases hjc' : j = c
      · rw [hjc', hswap_c] at hy
        rw [← Option.some.inj hx, ← Option.some.inj hy]
        exact ho.asymm (hP c _ hxc) (hP i _ hxi) hlt
      · rw [getElem?_swap_other hi hc (by omega) hjc'] at hy
        exact hfirst j hj hji hjc' x y (hxc.trans hx) hy
    · rw [getElem?_swap_other hi hc hji hjc] at hx
      by_cases hij : j = i
      · rw [hij, hswap_i] at hy
        rw [hij] at hx
        exact hready.across c (by omega) hparent (by omega) (hij ▸ hkj) x y hx (hxc.trans hy)
      · rw [getElem?_swap_other hi hc hij (by rintro rfl; exact hji hparent)] at hy
        exact hready.others j hj hkj hji x y hx hy
  · rw [hparent, hswap_i] at hx
    rw [getElem?_swap_other hi hc (by omega) (by omega)] at hy
    have hcj := hready.others j hj (by omega) (by omega)
    rw [hjc] at hcj
    exact hcj x y (hxc.trans hx) hy

theorem siftDown_perm (before : α → α → Bool) (items : Array α) (i : Nat) :
    (siftDown before items i).Perm items := by
  fun_induction siftDown before items i with
  | case1 => exact .rfl
  | case2 items i c hic hc hmatch hi hlt ih =>
      simp only [hmatch, hlt, if_true]
      exact ih.trans (Array.swap_perm hi hc)
  | case3 items i c hic hc hmatch hi hlt =>
      simp only [hmatch, hlt, Bool.false_eq_true, if_false]
      exact .rfl

theorem orderedFrom_siftDown (ho : Orders before P) {items : Array α} (hP : Within P items)
    {k i : Nat} (hready : DownReady before items k i) :
    OrderedFrom before k (siftDown before items i) := by
  fun_induction siftDown before items i with
  | case1 items i hnone =>
      intro j hj hkj
      by_cases hji : (j - 1) / 2 = i
      · intro x y _ hy
        rw [Array.getElem?_eq_none (firstChild?_eq_none hnone hj hji)] at hy
        cases hy
      · exact hready.others j hj hkj hji
  | case2 items i c hic hc hmatch hi hlt ih =>
      obtain ⟨hparent, hfirst⟩ := firstChild?_eq_some ho hP hmatch
      simp only [hmatch, hlt, if_true]
      exact ih (within_swap hP hi hc) (hready.swap ho hP hparent hic hi hc hfirst hlt)
  | case3 items i c hic hc hmatch hi hlt =>
      obtain ⟨hparent, hfirst⟩ := firstChild?_eq_some ho hP hmatch
      have hstop : InOrder before items i c := by
        intro x y hx hy
        rw [Array.getElem?_eq_getElem hi] at hx
        rw [Array.getElem?_eq_getElem hc] at hy
        rw [← Option.some.inj hx, ← Option.some.inj hy]
        simpa using hlt
      simp only [hmatch, hlt, Bool.false_eq_true, if_false]
      intro j hj hkj
      by_cases hji : (j - 1) / 2 = i
      · rw [hji]
        by_cases hjc : j = c
        · exact hjc ▸ hstop
        · exact hstop.trans ho hP hc (hfirst j hj hji hjc)
      · exact hready.others j hj hkj hji

theorem arrange_perm (before : α → α → Bool) (i : Nat) (items : Array α) :
    (arrange before i items).Perm items := by
  induction i generalizing items with
  | zero => exact .rfl
  | succ i ih => exact (ih _).trans (siftDown_perm before items i)

/-- The places are put in order from the last one to the first. -/
theorem ordered_arrange (ho : Orders before P) {items : Array α} (hP : Within P items) {i : Nat}
    (hordered : OrderedFrom before i items) : Ordered before (arrange before i items) := by
  induction i generalizing items with
  | zero => exact hordered.ordered
  | succ i ih =>
      have hready : DownReady before items i i :=
        ⟨Nat.le_refl i, fun j hj hij hne => hordered j hj (by omega),
          fun j _ _ hpos hle => absurd hle (by omega)⟩
      have hwithin : Within P (siftDown before items i) := by
        rw [within_iff] at hP ⊢
        intro x hx
        exact hP x ((siftDown_perm before items i).toList.mem_iff.mp hx)
      exact ih hwithin (orderedFrom_siftDown ho hP hready)

/-! ### The operations -/

structure Valid (before : α → α → Bool) (P : α → Prop) (h : Heap α) : Prop where
  ordered : Ordered before h.items
  within : Within P h.items

theorem Valid.mem {h : Heap α} (hv : h.Valid before P) {x : α} (hx : x ∈ h.toList) : P x :=
  within_iff.mp hv.within x hx

theorem valid_empty : (empty : Heap α).Valid before P :=
  ⟨fun j _ x y hx _ => by simp [empty] at hx, fun i x hx => by simp [empty] at hx⟩

theorem toList_push (before : α → α → Bool) (h : Heap α) (a : α) :
    (h.push before a).toList.Perm (a :: h.toList) := by
  have hperm := (siftUp_perm before (h.items.push a) h.items.size (by simp)).toList
  have hpush : (h.items.push a).toList = h.toList ++ [a] := by simp [toList]
  rw [hpush] at hperm
  exact hperm.trans (List.perm_append_singleton a h.toList)

theorem Valid.push (ho : Orders before P) {h : Heap α} (hv : h.Valid before P) {a : α} (ha : P a) :
    (h.push before a).Valid before P := by
  have hP : Within P (h.items.push a) := by
    rw [within_iff]
    intro x hx
    rw [Array.toList_push, List.mem_append, List.mem_singleton] at hx
    rcases hx with hx | rfl
    · exact hv.mem hx
    · exact ha
  refine ⟨ordered_siftUp ho hP _ ⟨fun j hj hne x y hx hy => ?_, fun j hj hparent _ x y _ hy => ?_⟩,
    ?_⟩
  · rw [Array.getElem?_push] at hx hy
    rw [if_neg hne] at hy
    have hjsize : j < h.items.size := by
      by_contra hge
      rw [Array.getElem?_eq_none (Nat.le_of_not_lt hge)] at hy
      cases hy
    rw [if_neg (by omega)] at hx
    exact hv.ordered j hj x y hx hy
  · rw [Array.getElem?_eq_none (by rw [Array.size_push]; omega)] at hy
    cases hy
  · rw [within_iff] at hP ⊢
    intro x hx
    exact hP x ((siftUp_perm _ _ _ _).toList.mem_iff.mp hx)

theorem min?_eq_none_iff {h : Heap α} : h.min? = none ↔ h.toList = [] := by
  simp [min?, toList]

/-- The least entry and the heap without it make up the heap. -/
theorem toList_dropMin (before : α → α → Bool) {h : Heap α} {a : α} (ha : h.min? = some a) :
    h.toList.Perm (a :: (h.dropMin before).toList) := by
  obtain ⟨items⟩ := h
  change items[0]? = some a at ha
  obtain ⟨hpos, hget⟩ := Array.getElem?_eq_some_iff.mp ha
  have hlast : items.size - 1 < items.size := by omega
  have hswapped : (items.swap 0 (items.size - 1)).toList.Perm items.toList :=
    (Array.swap_perm hpos hlast).toList
  have hdrop : (dropMin before ⟨items⟩).toList =
      (siftDown before (items.swap 0 (items.size - 1)).pop 0).toList := by
    simp [dropMin, toList, hpos]
  have hsplit : (items.swap 0 (items.size - 1)).toList =
      (items.swap 0 (items.size - 1)).pop.toList ++ [a] := by
    have hne : (items.swap 0 (items.size - 1)).toList ≠ [] := by
      intro hnil
      have hlength := congrArg List.length hnil
      rw [Array.length_toList, Array.size_swap, List.length_nil] at hlength
      omega
    have hgetLast : (items.swap 0 (items.size - 1)).toList.getLast hne = a := by
      rw [List.getLast_eq_getElem]
      simp [hget]
    rw [Array.toList_pop, ← hgetLast]
    exact (List.dropLast_append_getLast hne).symm
  rw [hdrop]
  refine hswapped.symm.trans ?_
  rw [hsplit]
  exact (List.perm_append_singleton a _).trans
    ((siftDown_perm before _ 0).toList.symm.cons a)

theorem Valid.dropMin (ho : Orders before P) {h : Heap α} (hv : h.Valid before P) :
    (h.dropMin before).Valid before P := by
  cases hmin : h.min? with
  | none =>
      have hsize : ¬0 < h.items.size := by
        have := min?_eq_none_iff.mp hmin
        simpa [toList] using this
      rw [Heap.dropMin, dif_neg hsize]
      exact hv
  | some a =>
      have hmem : ∀ x ∈ (h.dropMin before).toList, P x := fun x hx =>
        hv.mem ((toList_dropMin before hmin).mem_iff.mpr (List.mem_cons_of_mem a hx))
      refine ⟨?_, within_iff.mpr hmem⟩
      obtain ⟨items⟩ := h
      change items[0]? = some a at hmin
      obtain ⟨hpos, -⟩ := Array.getElem?_eq_some_iff.mp hmin
      have hlast : items.size - 1 < items.size := by omega
      change Ordered before (Heap.dropMin before ⟨items⟩).items
      have hP : Within P (items.swap 0 (items.size - 1)).pop := by
        rw [within_iff]
        intro x hx
        rw [Array.toList_pop] at hx
        exact hv.mem ((Array.swap_perm hpos hlast).toList.mem_iff.mp (List.mem_of_mem_dropLast hx))
      -- Below the first place nothing has moved.
      have hsame : ∀ k x, 0 < k → (items.swap 0 (items.size - 1)).pop[k]? = some x →
          items[k]? = some x := by
        intro k x hk hx
        rw [Array.getElem?_pop, Array.size_swap] at hx
        split at hx
        · rw [getElem?_swap_other hpos hlast (by omega) (by omega)] at hx
          exact hx
        · cases hx
      rw [Heap.dropMin, dif_pos hpos]
      apply OrderedFrom.ordered
      apply orderedFrom_siftDown ho hP
      refine ⟨Nat.le_refl 0, fun j hj _ hparent x y hx hy => ?_,
        fun j _ _ hzero => absurd hzero (by omega)⟩
      exact hv.ordered j hj x y (hsame _ x (by omega) hx) (hsame j y hj hy)

/-- The entry in front does not come after any other. -/
theorem Valid.min?_le (ho : Orders before P) {h : Heap α} (hv : h.Valid before P) {a x : α}
    (ha : h.min? = some a) (hx : x ∈ h.toList) : before x a = false := by
  have hfirst : ∀ j, j < h.items.size → InOrder before h.items 0 j := by
    intro j
    induction j using Nat.strong_induction_on with
    | _ j ih =>
        intro hj
        rcases Nat.eq_zero_or_pos j with rfl | hpos
        · intro y z hy hz
          rw [hy] at hz
          obtain rfl := Option.some.inj hz
          by_contra hself
          rw [Bool.not_eq_false] at hself
          have := ho.asymm (hv.within 0 y hy) (hv.within 0 y hy) hself
          rw [hself] at this
          cases this
        · exact (ih ((j - 1) / 2) (by omega) (by omega)).trans ho hv.within (by omega)
            (hv.ordered j hpos)
  obtain ⟨j, hj⟩ := List.mem_iff_getElem?.mp hx
  have hj' : h.items[j]? = some x := by simpa [toList] using hj
  obtain ⟨hlt, -⟩ := Array.getElem?_eq_some_iff.mp hj'
  exact hfirst j hlt a x ha hj'

theorem toList_ofList (before : α → α → Bool) (l : List α) : (ofList before l).toList.Perm l :=
  (arrange_perm before (l.length / 2) l.toArray).toList

theorem ofList_spec (ho : Orders before P) {l : List α} (hl : ∀ x ∈ l, P x) :
    (ofList before l).Valid before P ∧ (ofList before l).toList.Perm l := by
  have hperm := toList_ofList before l
  have hP : Within P l.toArray := within_iff.mpr hl
  refine ⟨⟨ordered_arrange ho hP fun j hj hge x y _ hy => ?_, within_iff.mpr fun x hx => ?_⟩, hperm⟩
  · -- There is nothing below the second half.
    rw [Array.getElem?_eq_none (by rw [List.size_toArray]; omega)] at hy
    cases hy
  · exact hl x (hperm.mem_iff.mp hx)

end TourSearch.Heap
