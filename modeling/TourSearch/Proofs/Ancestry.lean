import TourSearch.Proofs.Arena
import Mathlib

/-!
Ancestors in the arena. A node carries the ids above it as a list that was copied when it was
created. As long as the arena is in order (`Tree.Rooted`) this list is the line of parents, and the
nodes whose lists begin it are exactly the ancestors. The last id that two lists share belongs
therefore to the deepest common ancestor, which is always there to be found.
-/

namespace TourSearch.Tree

variable {α μ : Type} [Scalar α] {t : Tree α μ} {h a b c : Nat}

/-- The ids on the way from the root to a node by parent links. -/
inductive Line (t : Tree α μ) : Handle → List Int → Prop where
  | root : Line t root [(t.node root).id]
  | child {h k : Handle} {ids : List Int} (parent_eq : t.lookup? (t.node h).parent = some k)
      (above : Line t k ids) : Line t h (ids ++ [(t.node h).id])

/-- The first node is an ancestor of the second, or the same. -/
def Above (t : Tree α μ) : Handle → Handle → Prop :=
  Relation.ReflTransGen fun k h => t.lookup? (t.node h).parent = some k

/-- The ids from the root to a node, as the node carries them. -/
def path (t : Tree α μ) (h : Handle) : List Int := (t.node h).rootPath ++ [(t.node h).id]

theorem pathToRoot_eq (hin : t.InArena h) : t.pathToRoot (t.node h).id = t.path h := by
  rw [InArena] at hin
  simp only [pathToRoot, hin, path]

theorem getLast?_path (t : Tree α μ) (h : Handle) : (t.path h).getLast? = some (t.node h).id :=
  List.getLast?_concat

namespace Rooted

theorem path_root (ht : t.Rooted) : t.path root = [(t.node root).id] := by
  rw [path, ht.root_rootPath, List.nil_append]

theorem path_inj (ht : t.Rooted) (ha : t.InArena a) (hb : t.InArena b)
    (heq : t.path a = t.path b) : a = b := by
  have hlast := congrArg List.getLast? heq
  rw [getLast?_path, getLast?_path] at hlast
  exact ht.id_inj (ht.lt_size ha) (ht.lt_size hb) (Option.some.inj hlast)

/-- A node of the arena other than the root has its parent there, and goes on from its path. -/
theorem exists_parent (ht : t.Rooted) (hin : t.InArena h) (hne : h ≠ root) :
    ∃ k : Nat, k < h ∧ t.InArena k ∧ t.lookup? (t.node h).parent = some k ∧
      (t.node h).depth = (t.node k).depth + 1 ∧ t.path h = t.path k ++ [(t.node h).id] := by
  obtain ⟨k, hk, hkin, hbegets⟩ := ht.of_child h hin hne
  refine ⟨k, hk, hkin, ?_, hbegets.depth_eq, ?_⟩
  · rw [hbegets.parent_eq]
    exact hkin
  · rw [path, path, hbegets.rootPath_eq]

theorem line_path (ht : t.Rooted) (hin : t.InArena h) : t.Line h (t.path h) := by
  induction h using Nat.strong_induction_on with
  | _ h ih =>
      by_cases hroot : h = root
      · rw [hroot, ht.path_root]
        exact .root
      · obtain ⟨k, hk, hkin, hlookup, -, hpath⟩ := ht.exists_parent hin hroot
        rw [hpath]
        exact .child hlookup (ih k hk hkin)

theorem lookup?_root_parent (ht : t.Rooted) : t.lookup? (t.node root).parent = none := by
  rw [Option.eq_none_iff_forall_ne_some]
  intro k hk
  have hid := (ht.found _ _ hk).2
  rw [ht.root_parent] at hid
  omega

/-- There is one line to a node of the arena. -/
theorem line_iff (ht : t.Rooted) (hin : t.InArena h) {ids : List Int} :
    t.Line h ids ↔ ids = t.path h := by
  refine ⟨fun hline => ?_, fun heq => heq ▸ ht.line_path hin⟩
  induction hline with
  | root => exact ht.path_root.symm
  | @child h k ids hlookup _ ih =>
      by_cases hroot : h = root
      · rw [hroot, ht.lookup?_root_parent] at hlookup
        cases hlookup
      · obtain ⟨k', -, hkin, hlookup', -, hpath⟩ := ht.exists_parent hin hroot
        obtain rfl := Option.some.inj (hlookup.symm.trans hlookup')
        rw [hpath, ih hkin]

theorem depth_eq (ht : t.Rooted) (hin : t.InArena h) :
    (t.node h).depth + 1 = (t.path h).length := by
  induction h using Nat.strong_induction_on with
  | _ h ih =>
      by_cases hroot : h = root
      · rw [hroot, ht.path_root, ht.root_depth]
        rfl
      · obtain ⟨k, hk, hkin, -, hdepth, hpath⟩ := ht.exists_parent hin hroot
        rw [hpath, List.length_append, hdepth, Nat.cast_add, ih k hk hkin]
        rfl

/-- The beginnings of a path are the paths of the ancestors. -/
theorem exists_above_of_begins (ht : t.Rooted) (ha : t.InArena a) {ids : List Int}
    (hbegins : ids <+: t.path a) (hne : ids ≠ []) :
    ∃ c, t.InArena c ∧ t.path c = ids ∧ t.Above c a := by
  induction a using Nat.strong_induction_on with
  | _ a ih =>
      rcases List.prefix_concat_iff.mp hbegins with hwhole | hbegins
      · exact ⟨a, ha, hwhole.symm, .refl⟩
      · have hroot : a ≠ root := by
          rintro rfl
          rw [ht.root_rootPath, List.prefix_nil] at hbegins
          exact hne hbegins
        obtain ⟨k, hk, hkin, hlookup, -, hpath⟩ := ht.exists_parent ha hroot
        have habove : t.path k = (t.node a).rootPath := List.append_cancel_right hpath.symm
        obtain ⟨c, hc, hcpath, hck⟩ := ih k hk hkin (habove ▸ hbegins)
        exact ⟨c, hc, hcpath, hck.tail hlookup⟩

theorem inArena_of_above (ht : t.Rooted) (ha : t.InArena a) (hca : t.Above c a) : t.InArena c := by
  induction hca using Relation.ReflTransGen.head_induction_on with
  | refl => exact ha
  | head hlookup _ _ =>
      have hknown := ht.found _ _ hlookup
      rw [hknown.2] at hlookup
      exact ht.keyed.inArena_iff.mpr hlookup

theorem begins_of_above (ht : t.Rooted) (ha : t.InArena a) (hca : t.Above c a) :
    t.path c <+: t.path a := by
  induction hca with
  | refl => exact List.prefix_rfl
  | @tail k a _ hlookup ih =>
      have hroot : a ≠ root := by
        rintro rfl
        rw [ht.lookup?_root_parent] at hlookup
        cases hlookup
      obtain ⟨k', -, hkin, hlookup', -, hpath⟩ := ht.exists_parent ha hroot
      obtain rfl := Option.some.inj (hlookup.symm.trans hlookup')
      rw [hpath]
      exact (ih hkin).trans (List.prefix_append _ _)

/-- An ancestor is a node whose path begins the path of the other. -/
theorem above_iff (ht : t.Rooted) (ha : t.InArena a) (hc : t.InArena c) :
    t.Above c a ↔ t.path c <+: t.path a := by
  refine ⟨ht.begins_of_above ha, fun hbegins => ?_⟩
  have hne : t.path c ≠ [] := List.append_ne_nil_of_right_ne_nil _ (List.cons_ne_nil _ _)
  obtain ⟨c', hc', hpath, hca⟩ := ht.exists_above_of_begins ha hbegins hne
  obtain rfl := ht.path_inj hc' hc hpath
  exact hca

end Rooted

/-- The shared beginning of two lists of ids ends with the last shared id. -/
theorem exists_lastShared (shared : Int) (as bs : List Int) :
    ∃ ids, ids <+: as ∧ ids <+: bs ∧ (∀ p, p <+: as → p <+: bs → p <+: ids) ∧
      lastShared shared as bs = ids.getLast?.getD shared := by
  induction as generalizing shared bs with
  | nil => exact ⟨[], List.prefix_rfl, List.nil_prefix, fun p hp _ => hp, rfl⟩
  | cons a as ih =>
      cases bs with
      | nil => exact ⟨[], List.nil_prefix, List.prefix_rfl, fun p _ hp => hp, rfl⟩
      | cons b bs =>
          by_cases hab : a = b
          · obtain ⟨ids, has, hbs, hmost, hlast⟩ := ih a bs
            subst hab
            refine ⟨a :: ids, (List.prefix_cons_inj a).mpr has, (List.prefix_cons_inj a).mpr hbs,
              fun p hpa hpb => ?_, ?_⟩
            · cases p with
              | nil => exact List.nil_prefix
              | cons c p =>
                  obtain ⟨rfl, hpa'⟩ := List.cons_prefix_cons.mp hpa
                  obtain ⟨-, hpb'⟩ := List.cons_prefix_cons.mp hpb
                  exact (List.prefix_cons_inj c).mpr (hmost p hpa' hpb')
            · rw [lastShared, if_pos rfl, hlast, List.getLast?_cons]
              rfl
          · refine ⟨[], List.nil_prefix, List.nil_prefix, fun p hpa hpb => ?_, ?_⟩
            · cases p with
              | nil => exact List.nil_prefix
              | cons c p =>
                  obtain ⟨rfl, -⟩ := List.cons_prefix_cons.mp hpa
                  exact absurd (List.cons_prefix_cons.mp hpb).1 hab
            · rw [lastShared, if_neg hab]
              rfl

namespace Rooted

theorem root_above (ht : t.Rooted) (ha : t.InArena a) : t.Above root a := by
  induction a using Nat.strong_induction_on with
  | _ a ih =>
      by_cases hroot : a = root
      · exact hroot ▸ .refl
      · obtain ⟨k, hk, hkin, hlookup, -, -⟩ := ht.exists_parent ha hroot
        exact (ih k hk hkin).tail hlookup

/-- The common ancestor is found, and every other one is above it. -/
theorem commonAncestor_spec (ht : t.Rooted) (ha : t.InArena a) (hb : t.InArena b) :
    ∃ c, t.commonAncestor a b = .ok c ∧ t.Above c a ∧ t.Above c b ∧
      ∀ c', t.Above c' a → t.Above c' b → t.Above c' c := by
  obtain ⟨ids, hpa, hpb, hmost, hlast⟩ :=
    exists_lastShared (t.node root).id (t.path a) (t.path b)
  have hroot := hmost (t.path root) (ht.begins_of_above ha (ht.root_above ha))
    (ht.begins_of_above hb (ht.root_above hb))
  have hne : ids ≠ [] := by
    rintro rfl
    rw [ht.path_root, List.prefix_nil] at hroot
    cases hroot
  obtain ⟨c, hc, hpath, hca⟩ := ht.exists_above_of_begins ha hpa hne
  refine ⟨c, ?_, hca, (ht.above_iff hb hc).mpr (hpath ▸ hpb), fun c' hca' hcb' => ?_⟩
  · have hid : lastShared (t.node root).id (t.path a) (t.path b) = (t.node c).id := by
      rw [hlast, ← hpath, getLast?_path, Option.getD_some]
    rw [InArena] at hc
    simp only [commonAncestor, pathToRoot_eq ha, pathToRoot_eq hb, hid, hc]
  · rw [ht.above_iff hc (ht.inArena_of_above ha hca'), hpath]
    exact hmost _ (ht.begins_of_above ha hca') (ht.begins_of_above hb hcb')

theorem depth_lt_of_above (ht : t.Rooted) (ha : t.InArena a) (hca : t.Above c a) :
    c = a ∨ (t.node c).depth < (t.node a).depth := by
  have hc := ht.inArena_of_above ha hca
  have hbegins := ht.begins_of_above ha hca
  have hdepth := ht.depth_eq ha
  have hdepth' := ht.depth_eq hc
  rcases Nat.lt_or_eq_of_le hbegins.length_le with hlt | heq
  · right
    omega
  · exact Or.inl (ht.path_inj hc ha (hbegins.eq_of_length heq))

end Rooted

/-- However a tree is edited, its arena stays in order (`Rooted`), an id stays with the node that
was given it, and a discard that fails changes nothing. The path to a node of the arena is therefore
the line of parents above it, and two nodes of the arena have a common ancestor, which is below
every other one and deeper. -/
theorem edits_keep_arena {edits : List (Edit α μ)} {t : Tree α μ}
    (hpermits : (initial : Tree α μ).PermitsAll edits)
    (heq : (initial : Tree α μ).after edits = t) :
    t.Rooted ∧
    (∀ more, t.PermitsAll more → ∀ h < t.records.size, h < (t.after more).records.size ∧
      ((t.after more).node h).id = (t.node h).id ∧
      ∀ k < (t.after more).records.size, ((t.after more).node k).id = (t.node h).id → k = h) ∧
    (∀ h < t.records.size, ∀ fault, (t.discard h).1 = .error fault → (t.discard h).2 = t) ∧
    (∀ h, t.InArena h → ∀ ids, t.Line h ids ↔ ids = t.pathToRoot (t.node h).id) ∧
    (∀ a b, t.InArena a → t.InArena b → ∃ c, t.commonAncestor a b = .ok c ∧
      t.Above c a ∧ t.Above c b ∧ ∀ c', t.Above c' a → t.Above c' b →
        t.Above c' c ∧ (c' = c ∨ (t.node c').depth < (t.node c).depth)) := by
  have ht : t.Rooted := heq ▸ rooted_initial.after hpermits
  refine ⟨ht, fun more hmore h hh => ?_, fun h hh fault hfault => ?_, fun h hin ids => ?_,
    fun a b ha hb => ?_⟩
  · have ht' := ht.after hmore
    have hh' := hh.trans_le (ht.size_le_after hmore)
    have hid : ((t.after more).node h).id = (t.node h).id := by
      rw [ht'.id_eq h hh', ht.id_eq h hh]
    exact ⟨hh', hid, fun k hk hkid => ht'.id_inj hk hh' (hkid.trans hid.symm)⟩
  · rcases ht.discard_cases hh with ⟨fault', hfail⟩ | ⟨-, -, k, -, -, -, hdone⟩
    · rw [hfail]
    · rw [hdone] at hfault
      cases hfault
  · rw [pathToRoot_eq hin]
    exact ht.line_iff hin
  · obtain ⟨c, hfound, hca, hcb, hmost⟩ := ht.commonAncestor_spec ha hb
    refine ⟨c, hfound, hca, hcb, fun c' hca' hcb' => ?_⟩
    have habove := hmost c' hca' hcb'
    exact ⟨habove, ht.depth_lt_of_above (ht.inArena_of_above ha hca) habove⟩

/-- Two branchings, a child of the second node that is discarded, and discards that fail: of a node
that is gone, of one with children and of the root. -/
def thinned : List (Edit Numeric.Extended Unit) :=
  [.createChildren 0 [⟨0, ()⟩, ⟨1, ()⟩], .createChildren 1 [⟨2, ()⟩, ⟨2, ()⟩],
    .markProcessed 3 .prunedInfeasible, .discard 3, .discard 3, .discard 1, .discard 0,
    .createChild 1 ⟨3, ()⟩, .setBounds 4 (.finite 7) (.finite 7) (.finite 7), .setIncumbent 4,
    .setBounds 2 (.finite 8) .infinity .infinity, .pruneByBound]

theorem edits_keep_arena_thinned :
    (initial : Tree Numeric.Extended Unit).PermitsAll thinned ∧
    ((initial : Tree Numeric.Extended Unit).after thinned).Rooted ∧
    ¬((initial : Tree Numeric.Extended Unit).after thinned).InArena 3 ∧
    ∃ c, ((initial : Tree Numeric.Extended Unit).after thinned).commonAncestor 4 5 = .ok c ∧
      ((initial : Tree Numeric.Extended Unit).after thinned).Above c 4 := by
  have hpermits : (initial : Tree Numeric.Extended Unit).PermitsAll thinned := by decide +kernel
  obtain ⟨hrooted, -, -, -, hcommon⟩ := edits_keep_arena hpermits rfl
  obtain ⟨c, hfound, hca, -, -⟩ := hcommon 4 5 (by decide +kernel) (by decide +kernel)
  exact ⟨hpermits, hrooted, by decide +kernel, c, hfound, hca⟩

end TourSearch.Tree
