import ConstraintTyping.Proofs.Renaming.Generalizing
import ConstraintTyping.Proofs.Renaming.Products
import ConstraintTyping.Proofs.Types.Uniquing

/-!
# General forms are canonical

The variables of a general form are named by their places in the type, whatever names they had, and
all at once, so that a name that was already there is no obstacle.  Two function types that differ by
the names of their variables therefore have one general form, with one number, and a general form is
its own.  No obligation of a group is lost on the way: each is asked by some member.
-/

namespace ConstraintTyping

open Store StoreM TypeTree

namespace Store

variable {st : Store} {ty : TypeId} {x y : VarIdent}

/-! ## Variables by their places -/

theorem nodup_collectVarsFrom {seen : List TypeId} (h : seen.Nodup) :
    (st.collectVarsFrom seen ty).Nodup := by
  induction ty using Nat.strongRecOn generalizing seen with
  | ind ty ih =>
    rw [collectVarsFrom]
    by_cases hg : st.isGeneric ty = true
    swap
    · rwa [if_neg hg]
    rw [if_pos hg]
    by_cases hv : st.isVar ty = true
    · rw [if_pos hv]
      split
      · exact h
      · next hmem =>
        rw [List.contains_iff_mem] at hmem
        exact List.nodup_append.mpr ⟨h, List.nodup_singleton ty, fun v hv w hw hvw =>
          hmem (List.mem_singleton.mp hw ▸ hvw ▸ hv)⟩
    · rw [if_neg hv]
      have hloop : ∀ (cs : List { c // c ∈ st.children ty }) (seen : List TypeId), seen.Nodup →
          (cs.foldl (fun seen c => st.collectVarsFrom seen c.1) seen).Nodup := by
        intro cs
        induction cs with
        | nil => exact fun _ h => h
        | cons c cs ihcs => exact fun seen h => ihcs _ (ih c.1 (lt_of_mem_children c.2) h)
      exact hloop _ _ h

/-- Each variable of a type is collected once. -/
theorem nodup_collectVars (st : Store) (ty : TypeId) : (st.collectVars ty).Nodup :=
  nodup_collectVarsFrom List.nodup_nil

/-- The place of a variable among those of a type, in order of first appearance. -/
def placeOf (st : Store) (ty : TypeId) (x : VarIdent) : Nat :=
  (st.collectVars ty).findIdx fun v => st.shape v = .var x

/-- The letters for the place of a variable among those of a type. -/
def letterOf (st : Store) (ty : TypeId) (x : VarIdent) : VarIdent :=
  .named (letterName (st.placeOf ty x))

theorem placeOf_spec (hty : ty < st.size) (hx : (st.tree ty).Occurs x) :
    ∃ h : st.placeOf ty x < (st.collectVars ty).length,
      st.shape (st.collectVars ty)[st.placeOf ty x] = .var x := by
  obtain ⟨v, hv⟩ := exists_var_of_occurs hx
  have hlt : st.placeOf ty x < (st.collectVars ty).length :=
    List.findIdx_lt_length_of_exists ⟨v, (mem_collectVars hty).mpr ⟨x, hv, hx⟩, by simpa using hv⟩
  exact ⟨hlt, of_decide_eq_true (List.findIdx_getElem (w := hlt))⟩

/-- The letters of the `i`-th variable of a type are the `i`-th ones. -/
theorem letterOf_eq (hty : ty < st.size) {i : Nat} {v : TypeId}
    (hi : (st.collectVars ty)[i]? = some v) (hv : st.shape v = .var x) :
    st.letterOf ty x = .named (letterName i) := by
  obtain ⟨hlt, hvi⟩ := List.getElem?_eq_some_iff.mp hi
  obtain ⟨y, hy, hoccurs⟩ := (mem_collectVars hty).mp (List.mem_of_getElem? hi)
  obtain rfl := Shape.var.inj (hv.symm.trans hy)
  obtain ⟨hlt', hshape⟩ := placeOf_spec hty hoccurs
  have hplace : st.placeOf ty x = i :=
    (nodup_collectVars st ty).getElem_inj_iff.mp ((eq_of_shape_var hshape hv).trans hvi.symm)
  rw [letterOf, hplace]

/-- Different variables of a type get different letters. -/
theorem injOn_letterOf (hty : ty < st.size) :
    Set.InjOn (st.letterOf ty) { x | (st.tree ty).Occurs x } := by
  intro x hx y hy hxy
  obtain ⟨hlt, hshape⟩ := placeOf_spec hty hx
  obtain ⟨hlt', hshape'⟩ := placeOf_spec hty hy
  have hplace := letterName_injective (VarIdent.named.inj hxy)
  simp only [hplace] at hshape
  exact Shape.var.inj (hshape.symm.trans hshape')

end Store

/-- What stands in a list of distinct elements is found at its place in a list beside it. -/
theorem lookup_zip_getElem {α β : Type} [DecidableEq α] {as : List α} {bs : List β} (has : as.Nodup)
    {i : Nat} (hi : i < as.length) (hi' : i < bs.length) : (as.zip bs).lookup as[i] = some bs[i] := by
  induction as generalizing bs i with
  | nil => cases hi
  | cons a as ih =>
    cases bs with
    | nil => cases hi'
    | cons b bs =>
      obtain ⟨ha, has⟩ := List.nodup_cons.mp has
      cases i with
      | zero => simp
      | succ i =>
        have hi : i < as.length := Nat.lt_of_succ_lt_succ hi
        have hne : (as[i] == a) = false :=
          beq_eq_false_iff_ne.mpr fun h => ha (h ▸ List.getElem_mem hi)
        simp only [List.zip_cons_cons, List.getElem_cons_succ, List.lookup_cons, hne]
        exact ih has hi (Nat.lt_of_succ_lt_succ hi')

namespace StoreM

variable {st : Store} {ty : TypeId} {sig : Signature TypeId} {obligations : List TypeId}

/-! ## Open obligations join a function type -/

/-- The obligations that join those of a function type are the ones that are new to it. -/
theorem allGivens_eq (givens obligations : List TypeId) :
    allGivens givens obligations = givens ++ newTo givens obligations := by
  induction obligations generalizing givens with
  | nil => simp [allGivens, newTo]
  | cons o obligations ih =>
    rw [allGivens, List.foldl_cons, ← allGivens]
    by_cases ho : o ∈ givens
    · rw [if_pos (by simpa using ho), ih, newTo_cons_of_mem ho]
    · rw [if_neg (by simpa using ho), ih, newTo_cons_of_not_mem (givens ++ [o]) ho
        (fun p => by simp [or_comm]), List.append_assoc, List.singleton_append]

/-- A function type with further obligations, all of which are types without qualifiers. -/
theorem signature?_joined (hsig : st.signature? ty = some sig) (hlt : ∀ o ∈ obligations, o < st.size)
    (hbare : ∀ o ∈ obligations, st.bare o = o) :
    let joined : Signature TypeId := { sig with givens := sig.givens ++ newTo sig.givens obligations }
    (∀ c ∈ joined.children, c < st.size ∧ st.bare c = c) ∧
      (function joined st).1 < (function joined st).2.size ∧
      (function joined st).2.signature? (function joined st).1 = some joined := by
  intro joined
  have hshape := shape_of_signature? hsig
  have hty : ty < st.size := lt_size_of_shape_ne (by rw [hshape]; exact nofun)
  have hown : ∀ c ∈ sig.children, c < st.size ∧ st.bare c = c := fun c hc => by
    have hc : c ∈ st.children ty := by
      show c ∈ (st.shape ty).children
      rw [hshape]
      exact hc
    exact ⟨lt_size_of_mem_children hty hc, bare_of_mem_children hty (by rw [hshape]; rfl) hc⟩
  have hchildren : ∀ c ∈ joined.children, c < st.size ∧ st.bare c = c := by
    intro c hc
    simp only [joined, Signature.children, newTo, List.cons_append, List.mem_cons, List.mem_append,
      List.mem_eraseDups, List.mem_filter] at hc hown
    rcases hc with rfl | hc | hc | ⟨hc, -⟩
    · exact hown _ (.inl rfl)
    · exact hown c (.inr (.inl hc))
    · exact hown c (.inr (.inr hc))
    · exact ⟨hlt c hc, hbare c hc⟩
  obtain ⟨hlt, hshape⟩ := (yields_intern (s := .function joined) rfl fun c hc =>
    (hchildren c hc).1).result
  have hmap : (Shape.function joined).map st.bare = .function joined :=
    (Shape.map_congr (g := id) (s := .function joined) fun c hc => (hchildren c hc).2).trans
      (Shape.map_id _)
  exact ⟨hchildren, hlt, congrArg Shape.signature? (hshape.trans hmap)⟩

/-- Generalizing a type with further obligations is generalizing the type that has them. -/
theorem generalize_eq_joined (hsig : st.signature? ty = some sig)
    (hlt : ∀ o ∈ obligations, o < st.size) (hbare : ∀ o ∈ obligations, st.bare o = o) :
    let full := function { sig with givens := sig.givens ++ newTo sig.givens obligations } st
    generalize ty obligations st = generalize full.1 [] full.2 ∧
      generalize ty obligations st = (letterMapping (full.2.collectVars full.1) >>= fun mapping =>
        substituteAll mapping full.1) full.2 := by
  intro full
  obtain ⟨hchildren, -, hsig'⟩ := signature?_joined hsig hlt hbare
  have hagain := repeats_intern (s := .function _) (fun c hc => (hchildren c hc).1) full.2 le_rfl
  have hfull := @generalize_eq _ _ _ [] hsig'
  have hrun := @generalize_eq _ _ _ obligations hsig
  rw [allGivens_eq] at hrun
  refine ⟨hrun.trans (hfull.trans ?_).symm, hrun⟩
  dsimp only [allGivens, List.foldl_nil]
  rw [show function _ full.2 = (full.1, full.2) from hagain]

/-! ## Letters by places -/

/-- The variables of a type are replaced by the letters of their places, all at once. -/
theorem tree_letters (hty : ty < st.size) :
    let named := (letterMapping (st.collectVars ty) >>= fun mapping => substituteAll mapping ty) st
    named.1 < named.2.size ∧ named.2.tree named.1 = (st.tree ty).rename (st.letterOf ty) := by
  obtain ⟨ws, st', hrun, hle, hlen, hws⟩ := letterMapping_run (st.collectVars ty) st
  have hwslt : ∀ p ∈ (st.collectVars ty).zip ws, p.2 < st'.size := fun p hp => by
    obtain ⟨i, hi, hpi⟩ := List.getElem_of_mem (List.of_mem_zip hp).2
    exact lt_size_of_shape_var (hpi ▸ hws i hi)
  obtain ⟨-, hlt, htree⟩ := yields_substituteAll hwslt (lt_size_of_le hle hty)
  dsimp only
  rw [StateM.bind_apply, hrun]
  refine ⟨hlt, htree.trans ?_⟩
  rw [tree_of_le hle hty]
  refine subst_congr fun x hx => ?_
  obtain ⟨hi, hshape⟩ := placeOf_spec hty hx
  have hi' : st.placeOf ty x < ws.length := hlen ▸ hi
  have hv := (shape_of_le hle (lt_size_of_shape_var hshape)).trans hshape
  rw [readVars_eq hv, lookup_zip_getElem (nodup_collectVars st ty) hi hi', Option.getD_some,
    tree_of_var (hws _ hi')]
  rfl

theorem isQualified_letters (hty : ty < st.size) (hv : st.isVar ty = false)
    (hq : (st.shape ty).isQualified = false) :
    let named := (letterMapping (st.collectVars ty) >>= fun mapping => substituteAll mapping ty) st
    (named.2.shape named.1).isQualified = false := by
  obtain ⟨ws, st', hrun, hle, -, -⟩ := letterMapping_run (st.collectVars ty) st
  dsimp only
  rw [StateM.bind_apply, hrun]
  exact Renaming.isQualified_substituteAll _ (lt_size_of_le hle hty)
    ((isVar_of_le hle hty).trans hv) ((congrArg Shape.isQualified (shape_of_le hle hty)).trans hq)

/-- A general form is the type with all its obligations, its variables named by their places. -/
theorem tree_generalize (hsig : st.signature? ty = some sig) (hlt : ∀ o ∈ obligations, o < st.size)
    (hbare : ∀ o ∈ obligations, st.bare o = o) :
    let full := function { sig with givens := sig.givens ++ newTo sig.givens obligations } st
    let general := generalize ty obligations st
    general.1 < general.2.size ∧ (general.2.shape general.1).isQualified = false ∧
      general.2.tree general.1 = (full.2.tree full.1).rename (full.2.letterOf full.1) := by
  obtain ⟨-, -, hjoined⟩ := signature?_joined hsig hlt hbare
  obtain ⟨hfull, hv, hq⟩ := unqualified_of_signature? hjoined
  obtain ⟨hgeneral, htree⟩ := tree_letters hfull
  dsimp only
  rw [(generalize_eq_joined hsig hlt hbare).2]
  exact ⟨hgeneral, isQualified_letters hfull hv hq, htree⟩

/-! ## Types that differ by the names of their variables -/

/-- Function types that are alike, the second generalized at any later time, have one general
form. -/
theorem generalize_eq_of_alike {R : Renaming} {ty' : TypeId} {obligations' : List TypeId}
    {later : Store} (h : R.AlikeFunction (st, later) ty ty')
    (hos : R.AllAlike (st, later) obligations obligations')
    (hle : (generalize ty obligations st).2 ≤ later) :
    (generalize ty' obligations' later).1 = (generalize ty obligations st).1 := by
  -- both computations go side by side, the second from a store that has the first result already
  obtain ⟨w, -, hin, hsame⟩ := Renaming.couples_generalize h hos st later
    ⟨rfl, rfl, Renaming.lockstep_shift (st, later)⟩
  generalize generalize ty obligations st = general at hin hsame hle
  have hle' := le_trans hle (builds_generalize ty' obligations' later).1
  generalize generalize ty' obligations' later = general' at hin hsame hle'
  have hw : w = (general.2, general'.2) := Prod.ext hin.left hin.right
  rw [hw] at hsame
  have hlt := hsame.alike.left_lt
  have hq : (general'.2.shape general'.1).isQualified = false :=
    hsame.alike.isQualified_eq.trans hsame.not_qualified
  have hq' : (general'.2.shape general.1).isQualified = false :=
    (congrArg Shape.isQualified (shape_of_le hle' hlt)).trans hsame.not_qualified
  refine eq_of_tree_eq hsame.alike.right_lt (lt_size_of_le hle' hlt) (bare_of_not_qualified hq)
    (bare_of_not_qualified hq') ?_
  rw [hsame.alike.tree, tree_of_le hle' hlt]
  exact rename_eq_self fun _ _ => rfl

/-- Types without qualifiers are alike when their trees are. -/
theorem alike_of_tree {R : Renaming} {w : Stores} {a b : TypeId} (ha : a < w.1.size)
    (hb : b < w.2.size) (hqa : (w.1.shape a).isQualified = false)
    (hqb : (w.2.shape b).isQualified = false) (htree : w.2.tree b = (w.1.tree a).rename R.name)
    (hdom : ∀ x, (w.1.tree a).Occurs x → x ∈ R.dom) : R.Alike w a b where
  left_lt := ha
  right_lt := hb
  qualifiers := by rw [qualifiers_of_not_qualified hqa, qualifiers_of_not_qualified hqb]
  tree := htree
  occurs := hdom

/-! ## Obligations of a group -/

/-- Every open obligation of a group is asked by some member of it, and by each member with which it
shares a variable. -/
theorem givensFor_covers {members retained : List TypeId} (hne : members ≠ [])
    (hmembers : ∀ m ∈ members, m < st.size) (hretained : ∀ o ∈ retained, o < st.size) {o : TypeId}
    (ho : o ∈ retained) :
    (∃ m ∈ members, o ∈ st.givensFor m members retained) ∧
      ∀ m ∈ members, (st.tree o).Shares (st.tree m) → o ∈ st.givensFor m members retained := by
  have hasked : ∀ m ∈ members, (st.tree o).AskedOf (st.tree m) (members.map st.tree) →
      o ∈ st.givensFor m members retained :=
    fun m hm h => (mem_givensFor (hmembers m hm) hmembers hretained).mpr ⟨ho, h⟩
  refine ⟨?_, fun m hm h => hasked m hm (.inl h)⟩
  by_cases hshare : ∃ m ∈ members, (st.tree o).Shares (st.tree m)
  · obtain ⟨m, hm, h⟩ := hshare
    exact ⟨m, hm, hasked m hm (.inl h)⟩
  · obtain ⟨m, hm⟩ := List.exists_mem_of_ne_nil members hne
    refine ⟨m, hm, hasked m hm (.inr ?_)⟩
    rintro _ ht hshares
    obtain ⟨m', hm', rfl⟩ := List.mem_map.mp ht
    exact hshare ⟨m', hm', hshares⟩

/-- A function type whose variables are renamed, generalized at any later time with obligations that
are renamed the same way, has the same general form. -/
theorem generalize_eq_of_rename {ty' : TypeId} {sig' : Signature TypeId}
    {obligations' : List TypeId} {ρ : VarIdent → VarIdent} {later : Store}
    (hsig : st.signature? ty = some sig) (htraits : ∀ o ∈ obligations, st.kind o = .trait)
    (hle : (generalize ty obligations st).2 ≤ later) (hsig' : later.signature? ty' = some sig')
    (htraits' : ∀ o ∈ obligations', later.kind o = .trait)
    (hρ : Set.InjOn ρ { x | (st.tree ty).Occurs x ∨ ∃ o ∈ obligations, (st.tree o).Occurs x })
    (htree : later.tree ty' = (st.tree ty).rename ρ)
    (hos : List.Forall₂ (fun o o' => later.tree o' = (st.tree o).rename ρ) obligations obligations') :
    (generalize ty' obligations' later).1 = (generalize ty obligations st).1 := by
  obtain ⟨hty, -, hq⟩ := unqualified_of_signature? hsig
  obtain ⟨hty', -, hq'⟩ := unqualified_of_signature? hsig'
  let R : Renaming := ⟨ρ, _, hρ⟩
  have halike : R.Alike (st, later) ty ty' :=
    alike_of_tree hty hty' hq hq' htree fun x hx => .inl hx
  have hosalike : R.AllAlike (st, later) obligations obligations' := by
    have hright := (forall₂_of_mem hos.flip fun o' ho' o (h : later.tree o' = _) =>
      And.intro h (unqualified_of_trait (htraits' o' ho'))).flip
    refine forall₂_of_mem hright fun o ho o' ⟨htree, ho', hq'⟩ => ?_
    obtain ⟨hlt, hq⟩ := unqualified_of_trait (htraits o ho)
    exact alike_of_tree hlt ho' hq hq' htree fun x hx => .inr ⟨o, ho, hx⟩
  exact generalize_eq_of_alike ⟨halike, sig, hsig⟩ hosalike hle

/-- A general form is its own. -/
theorem generalize_generalize {later : Store} (hsig : st.signature? ty = some sig)
    (hlt : ∀ o ∈ obligations, o < st.size) (hbare : ∀ o ∈ obligations, st.bare o = o)
    (hle : (generalize ty obligations st).2 ≤ later) :
    (generalize (generalize ty obligations st).1 [] later).1 = (generalize ty obligations st).1 := by
  obtain ⟨-, -, hjoined⟩ := signature?_joined hsig hlt hbare
  obtain ⟨hfull, -, hqfull⟩ := unqualified_of_signature? hjoined
  obtain ⟨hgeneral, hqgeneral, htree⟩ := tree_generalize hsig hlt hbare
  have hsettled := (generalize_eq_joined hsig hlt hbare).1
  generalize generalize ty obligations st = general at hsettled hgeneral hqgeneral htree hle ⊢
  generalize function _ st = full at hjoined hsettled hfull hqfull htree
  -- it is the type with all its obligations after a renaming, so the two have one general form
  let R : Renaming := ⟨full.2.letterOf full.1, _, injOn_letterOf hfull⟩
  have halike : R.Alike (full.2, later) full.1 general.1 :=
    alike_of_tree hfull (lt_size_of_le hle hgeneral) hqfull
      ((congrArg Shape.isQualified (shape_of_le hle hgeneral)).trans hqgeneral)
      ((tree_of_le hle hgeneral).trans htree) fun x hx => hx
  have hnone : R.AllAlike (full.2, later) [] [] := .nil
  have hsame := generalize_eq_of_alike ⟨halike, _, hjoined⟩ hnone (hsettled ▸ hle)
  exact hsame.trans (congrArg Prod.fst hsettled).symm

/-- The general form of a function type with open obligations is the type, with those obligations
that it does not have yet put behind its own, each once, and its variables renamed to letters by
their places; no two of them become one.  Whatever happens to the store in between, a function type
and obligations that differ from these by the names of variables have the same general form, and the
general form of the general form is itself.  Of the open obligations of a group, each is asked by a
member, and by every member with which it shares a variable. -/
theorem generalize_canonical (hsig : st.signature? ty = some sig)
    (htraits : ∀ o ∈ obligations, st.kind o = .trait) :
    let joined : Signature TypeId :=
      { sig with
        givens := sig.givens ++ (obligations.filter fun o => !sig.givens.contains o).eraseDups }
    let full := function joined st
    let general := generalize ty obligations st
    (full.2.signature? full.1 = some joined ∧
      general.2.bare general.1 = general.1 ∧
      ∃ ρ : VarIdent → VarIdent,
        general.2.tree general.1 = (full.2.tree full.1).rename ρ ∧
        Set.InjOn ρ { x | (full.2.tree full.1).Occurs x } ∧
        ∀ i v x, (full.2.collectVars full.1)[i]? = some v → full.2.shape v = .var x →
          ρ x = .named (letterName i)) ∧
    (∀ later, general.2 ≤ later →
      (∀ (ty' : TypeId) (sig' : Signature TypeId) (obligations' : List TypeId)
          (ρ : VarIdent → VarIdent),
        later.signature? ty' = some sig' → (∀ o ∈ obligations', later.kind o = .trait) →
        Set.InjOn ρ { x | (st.tree ty).Occurs x ∨ ∃ o ∈ obligations, (st.tree o).Occurs x } →
        later.tree ty' = (st.tree ty).rename ρ →
        List.Forall₂ (fun o o' => later.tree o' = (st.tree o).rename ρ) obligations obligations' →
        (generalize ty' obligations' later).1 = general.1) ∧
      (generalize general.1 [] later).1 = general.1) ∧
    (∀ members retained : List TypeId, members ≠ [] → (∀ m ∈ members, m < st.size) →
      (∀ o ∈ retained, o < st.size) → ∀ o ∈ retained,
        (∃ m ∈ members, o ∈ st.givensFor m members retained) ∧
        ∀ m ∈ members, (st.tree o).Shares (st.tree m) → o ∈ st.givensFor m members retained) := by
  intro joined full general
  have hlt : ∀ o ∈ obligations, o < st.size := fun o ho => (unqualified_of_trait (htraits o ho)).1
  have hbare : ∀ o ∈ obligations, st.bare o = o :=
    fun o ho => bare_of_not_qualified (unqualified_of_trait (htraits o ho)).2
  obtain ⟨-, -, hjoined⟩ := signature?_joined hsig hlt hbare
  have hfull := (unqualified_of_signature? hjoined).1
  obtain ⟨-, hqgeneral, htree⟩ := tree_generalize hsig hlt hbare
  refine ⟨⟨hjoined, bare_of_not_qualified hqgeneral, _, htree, injOn_letterOf hfull,
    fun i v x => letterOf_eq hfull⟩, fun later hle => ⟨?_, ?_⟩, fun members retained hne hmembers
      hretained o => givensFor_covers hne hmembers hretained⟩
  · intro ty' sig' obligations' ρ hsig' htraits' hρ htree' hos
    exact generalize_eq_of_rename hsig htraits hle hsig' htraits' hρ htree' hos
  · exact generalize_generalize hsig hlt hbare hle

/-- A store goes on to one that has a function from one variable to another and an obligation about
the first. -/
theorem exists_function_over (param result : Name) (st : Store) :
    ∃ (later : Store) (fn o : TypeId) (sig : Signature TypeId), st ≤ later ∧
      later.signature? fn = some sig ∧ later.kind o = .trait ∧
      later.tree fn = .mk (.function { ret := var (.named result), params := [var (.named param)] }) ∧
      later.tree o = .mk (.trait "Show" (var (.named param)) []) := by
  obtain ⟨st₁, p, hle₁, hp, -, hptree⟩ := exists_build st (s := .var (.named param)) rfl
    (by simp [Shape.children])
  obtain ⟨st₂, r, hle₂, hr, -, hrtree⟩ := exists_build st₁ (s := .var (.named result)) rfl
    (by simp [Shape.children])
  have hp₂ := lt_size_of_le hle₂ hp
  obtain ⟨st₃, o, hle₃, ho, hoshape, hotree⟩ := exists_build st₂ (s := .trait "Show" p []) rfl
    (by simpa [Shape.children] using hp₂)
  have hp₃ := lt_size_of_le hle₃ hp₂
  have hr₃ := lt_size_of_le hle₃ hr
  obtain ⟨st₄, fn, hle₄, -, hfnshape, hfntree⟩ := exists_build st₃
    (s := .function { ret := r, params := [p] }) rfl
    (by simpa [Shape.children, Signature.children] using ⟨hr₃, hp₃⟩)
  have hptree₃ : st₃.tree p = var (.named param) := by
    rw [tree_of_le (le_trans hle₂ hle₃) hp, hptree]
    rfl
  have hrtree₃ : st₃.tree r = var (.named result) := by
    rw [tree_of_le hle₃ hr, hrtree]
    rfl
  have hptree₂ : st₂.tree p = var (.named param) := by
    rw [tree_of_le hle₂ hp, hptree]
    rfl
  refine ⟨st₄, fn, o, _, le_trans hle₁ (le_trans hle₂ (le_trans hle₃ hle₄)),
    congrArg Shape.signature? hfnshape, ?_, ?_, ?_⟩
  · rw [kind, shape_of_le hle₄ ho, hoshape]
    rfl
  · rw [hfntree]
    simp [Shape.map, Signature.map, hptree₃, hrtree₃]
  · rw [tree_of_le hle₄ ho, hotree]
    simp [Shape.map, hptree₂]

/-- The type `('b) -> 'a` with the open obligation `Show 'b`, and later the same with the two names
exchanged: one general form, which is its own, and the member keeps its obligation. -/
theorem generalize_canonical_exchanged : ∃ (st later : Store) (fn o fn' o' : TypeId),
    st.tree fn = .mk (.function { ret := var (.named "a"), params := [var (.named "b")] }) ∧
      st.tree o = .mk (.trait "Show" (var (.named "b")) []) ∧
      later.tree fn' = .mk (.function { ret := var (.named "b"), params := [var (.named "a")] }) ∧
      later.tree o' = .mk (.trait "Show" (var (.named "a")) []) ∧
      (generalize fn' [o'] later).1 = (generalize fn [o] st).1 ∧
      (generalize (generalize fn [o] st).1 [] later).1 = (generalize fn [o] st).1 ∧
      o ∈ st.givensFor fn [fn] [o] := by
  obtain ⟨st, fn, o, sig, -, hsig, ho, hfntree, hotree⟩ := exists_function_over "b" "a" .new
  obtain ⟨later, fn', o', sig', hle, hsig', ho', hfntree', hotree'⟩ :=
    exists_function_over "a" "b" (generalize fn [o] st).2
  obtain ⟨-, hlater, hgroup⟩ := generalize_canonical hsig
    (show ∀ p ∈ [o], st.kind p = .trait by simpa using ho)
  obtain ⟨hsame, hself⟩ := hlater later hle
  let ρ := Equiv.swap (VarIdent.named "a") (.named "b")
  refine ⟨st, later, fn, o, fn', o', hfntree, hotree, hfntree', hotree', ?_, hself, ?_⟩
  · refine hsame fn' sig' [o'] ρ hsig' (by simpa using ho') ρ.injective.injOn ?_ (.cons ?_ .nil)
    · rw [hfntree', hfntree, rename_mk rfl]
      simp [Shape.map, Signature.map, ρ]
    · rw [hotree', hotree, rename_mk rfl]
      simp [Shape.map, ρ]
  · have hfn := (unqualified_of_signature? hsig).1
    have holt := (unqualified_of_trait ho).1
    exact (hgroup [fn] [o] (by simp) (by simpa using hfn) (by simpa using holt) o
      List.mem_cons_self).2 fn List.mem_cons_self ⟨.named "b", by simp [hotree, occurs_mk,
        Shape.varIdent?, Shape.children], by simp [hfntree, occurs_mk, Shape.varIdent?,
        Shape.children, Signature.children]⟩

end StoreM

end ConstraintTyping
