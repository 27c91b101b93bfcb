import ConstraintTyping.Check.Generalize
import ConstraintTyping.Proofs.Types.VarNames
import ConstraintTyping.Proofs.Types.Variables
import Mathlib.Data.Set.Function

/-!
# Generalization

The general form of a function type is the type with its open obligations, under a renaming of its
variables to letters.  No two variables get the same name, so the renaming can be undone: the type is
an instance of its general form.
-/

namespace ConstraintTyping

open TypeTree

/-! ## Renamings -/

/-- A renaming that keeps the variables of a tree apart can be undone. -/
theorem TypeTree.exists_subst_rename {t : TypeTree} {ρ : VarIdent → VarIdent}
    (h : Set.InjOn ρ { x | t.Occurs x }) :
    ∃ φ, (t.subst fun x => var (ρ x)).subst φ = t := by
  classical
  refine ⟨fun y => if hy : ∃ x, t.Occurs x ∧ ρ x = y then var hy.choose else var y, ?_⟩
  rw [subst_subst]
  refine subst_eq_self fun x hx => ?_
  have hex : ∃ x', t.Occurs x' ∧ ρ x' = ρ x := ⟨x, hx, rfl⟩
  rw [subst_var, dif_pos hex, h hex.choose_spec.1 hx hex.choose_spec.2]

/-! ## Open obligations -/

namespace TypeTree

/-- A variable occurs in both of two trees. -/
def Shares (t u : TypeTree) : Prop := ∃ x, t.Occurs x ∧ u.Occurs x

/-- An obligation is one for the callers of a member of a group: it shares a variable with the type of
the member, or with the type of no member at all. -/
def AskedOf (o member : TypeTree) (members : List TypeTree) : Prop :=
  o.Shares member ∨ ∀ t ∈ members, ¬ o.Shares t

/-- The general form of the type of a member of a group: the obligations that are left open and are
ones for its callers join its own, and variables are renamed without two becoming one. -/
def IsGeneralForm (g member : TypeTree) (members retained : List TypeTree) : Prop :=
  ∃ (sig : Signature TypeTree) (givens : List TypeTree) (ρ : VarIdent → VarIdent),
    member = .mk (.function sig) ∧
    (∀ o, o ∈ givens ↔ o ∈ sig.givens ∨ o ∈ retained ∧ o.AskedOf member members) ∧
    Set.InjOn ρ { x | (mk (.function { sig with givens })).Occurs x } ∧
    g = (mk (.function { sig with givens })).subst fun x => var (ρ x)

end TypeTree

namespace Store

variable {st : Store} {ty o : TypeId} {members retained : List TypeId}

theorem any_contains_collectVars {tys : List TypeId} (ho : o < st.size)
    (htys : ∀ ty ∈ tys, ty < st.size) :
    (st.collectVars o).any (tys.flatMap st.collectVars).contains = true ↔
      ∃ ty ∈ tys, (st.tree o).Shares (st.tree ty) := by
  simp only [List.any_eq_true, List.contains_iff_mem, List.mem_flatMap]
  constructor
  · rintro ⟨v, hv, ty, hty, hmem⟩
    obtain ⟨x, hx, hocc⟩ := (mem_collectVars ho).mp hv
    obtain ⟨y, hy, hocc'⟩ := (mem_collectVars (htys ty hty)).mp hmem
    obtain rfl := Shape.var.inj (hx.symm.trans hy)
    exact ⟨ty, hty, x, hocc, hocc'⟩
  · rintro ⟨ty, hty, x, hocc, hocc'⟩
    obtain ⟨v, hv⟩ := exists_var_of_occurs hocc
    exact ⟨v, (mem_collectVars ho).mpr ⟨x, hv, hocc⟩, ty, hty,
      (mem_collectVars (htys ty hty)).mpr ⟨x, hv, hocc'⟩⟩

/-- The obligations that a member takes over, read as trees. -/
theorem mem_givensFor (hty : ty < st.size) (hmembers : ∀ m ∈ members, m < st.size)
    (hretained : ∀ o ∈ retained, o < st.size) :
    o ∈ st.givensFor ty members retained ↔
      o ∈ retained ∧ (st.tree o).AskedOf (st.tree ty) (members.map st.tree) := by
  unfold givensFor
  rw [List.mem_filter]
  refine and_congr_right fun ho => ?_
  have hown := any_contains_collectVars (hretained o ho) (List.forall_mem_singleton.mpr hty)
  have hshared := any_contains_collectVars (hretained o ho) hmembers
  rw [List.flatMap_singleton] at hown
  simp only [List.mem_singleton, exists_eq_left] at hown
  rw [Bool.or_eq_true, hown, Bool.not_eq_true', ← Bool.not_eq_true, hshared, AskedOf]
  simp only [List.forall_mem_map, not_exists, not_and]

end Store

namespace StoreM

open Store

variable {st : Store} {ty : TypeId} {sig : Signature TypeId} {obligations : List TypeId}

/-- The obligations of a function type, with further ones that are not among them. -/
def allGivens (givens obligations : List TypeId) : List TypeId :=
  obligations.foldl (fun givens o => if givens.contains o then givens else givens ++ [o]) givens

theorem mem_allGivens {givens : List TypeId} {o : TypeId} :
    o ∈ allGivens givens obligations ↔ o ∈ givens ∨ o ∈ obligations := by
  induction obligations generalizing givens with
  | nil => simp [allGivens]
  | cons p obligations ih =>
    rw [allGivens, List.foldl_cons, ← allGivens, ih]
    split
    · next hmem =>
      rw [List.contains_iff_mem] at hmem
      simp only [List.mem_cons]
      constructor
      · exact Or.imp_right .inr
      · rintro (h | rfl | h)
        · exact .inl h
        · exact .inl hmem
        · exact .inr h
    · simp only [List.mem_append, List.mem_cons, List.not_mem_nil, or_false, or_assoc]

/-- Each of a list of variables is paired with the letters of its place. -/
theorem letterMapping_run (vs : List TypeId) (st : Store) :
    ∃ ws st', letterMapping vs st = (vs.zip ws, st') ∧ st ≤ st' ∧ ws.length = vs.length ∧
      ∀ i (h : i < ws.length), st'.shape ws[i] = .var (.named (letterName i)) := by
  have hloop : ∀ (vs : List TypeId) (n : Nat) (st : Store), ∃ ws st',
      ((vs.zipIdx n).mapM fun p => return (p.1, ← namedVar (letterName p.2)) :
        StoreM (List (TypeId × TypeId))) st = (vs.zip ws, st') ∧ st ≤ st' ∧ ws.length = vs.length ∧
      ∀ i (h : i < ws.length), st'.shape ws[i] = .var (.named (letterName (n + i))) := by
    intro vs
    induction vs with
    | nil => exact fun n st => ⟨[], st, rfl, le_rfl, rfl, fun i h => by cases h⟩
    | cons v vs ih =>
      intro n st
      obtain ⟨hlt, hshape⟩ := (@yields_intern st (.var (.named (letterName n))) rfl
        (by simp [Shape.children])).result
      have hle := (builds_intern (.var (.named (letterName n))) st).1
      obtain ⟨ws, st', hrun, hle', hlen, hws⟩ := ih (n + 1) (namedVar (letterName n) st).2
      refine ⟨(namedVar (letterName n) st).1 :: ws, st', ?_, hle.trans hle',
        congrArg (· + 1) hlen, fun i h => ?_⟩
      · rw [List.zipIdx_cons, List.mapM_cons]
        simp only [StateM.bind_apply, StateM.pure_apply]
        rw [hrun]
        rfl
      · cases i with
        | zero => exact (shape_of_le hle' hlt).trans hshape
        | succ i =>
          rw [List.getElem_cons_succ, hws i (Nat.lt_of_succ_lt_succ h)]
          congr 3
          omega
  obtain ⟨ws, st', hrun, hle, hlen, hws⟩ := hloop vs 0 st
  exact ⟨ws, st', hrun, hle, hlen, fun i h => by rw [hws i h, Nat.zero_add]⟩

/-- The letters that variables are renamed to are distinct variables. -/
theorem letterMapping_spec (vs : List TypeId) (st : Store) :
    ∃ ws st', letterMapping vs st = (vs.zip ws, st') ∧ st ≤ st' ∧ ws.length = vs.length ∧
      ws.Nodup ∧ ∀ w ∈ ws, ∃ i, st'.shape w = .var (.named (letterName i)) := by
  obtain ⟨ws, st', hrun, hle, hlen, hws⟩ := letterMapping_run vs st
  refine ⟨ws, st', hrun, hle, hlen, List.nodup_iff_injective_getElem.mpr fun i j hij => ?_, ?_⟩
  · have hshape := (hws i i.2).symm.trans ((congrArg st'.shape hij).trans (hws j j.2))
    exact Fin.ext (letterName_injective (VarIdent.named.inj (Shape.var.inj hshape)))
  · intro w hw
    obtain ⟨i, hi, rfl⟩ := List.getElem_of_mem hw
    exact ⟨_, hws i hi⟩

/-- A function type with all its obligations, read as a tree. -/
def withGivens (st : Store) (sig : Signature TypeId) (obligations : List TypeId) : TypeTree :=
  .mk (.function ({ sig with givens := allGivens sig.givens obligations }.map st.tree))

/-- Generalizing a function type: the obligations join it, and then its variables are renamed. -/
theorem generalize_eq (hsig : st.signature? ty = some sig) :
    let full := function { sig with givens := allGivens sig.givens obligations } st
    generalize ty obligations st = (letterMapping (full.2.collectVars full.1) >>= fun mapping =>
      substituteAll mapping full.1) full.2 := by
  unfold generalize
  rw [StateM.bind_apply, StateM.get_apply, hsig]
  rfl

/-- The general form of a function type is the type with its obligations under a renaming. -/
theorem renames_generalize (hty : ty < st.size) (hsig : st.signature? ty = some sig)
    (hobligations : ∀ o ∈ obligations, o < st.size) :
    ∃ ρ : VarIdent → VarIdent,
      Set.InjOn ρ { x | (withGivens st sig obligations).Occurs x } ∧
      (generalize ty obligations st).1 < (generalize ty obligations st).2.size ∧
      (generalize ty obligations st).2.tree (generalize ty obligations st).1 =
        (withGivens st sig obligations).subst fun x => var (ρ x) := by
  have hchildren : ∀ c ∈ ({ sig with givens := allGivens sig.givens obligations } :
      Signature TypeId).children, c < st.size := by
    intro c hc
    have hsigs : ∀ c ∈ sig.children, c < st.size := fun c hc => by
      refine lt_size_of_mem_children hty ?_
      show c ∈ (st.shape ty).children
      rw [shape_of_signature? hsig]
      exact hc
    simp only [Signature.children, List.mem_cons, List.mem_append, mem_allGivens] at hc hsigs
    rcases hc with (rfl | hc) | hc | hc
    · exact hsigs _ (.inl (.inl rfl))
    · exact hsigs c (.inl (.inr hc))
    · exact hsigs c (.inr hc)
    · exact hobligations c hc
  obtain ⟨-, hlt, htree⟩ := yields_function hchildren
  let full := function { sig with givens := allGivens sig.givens obligations } st
  change full.1 < full.2.size at hlt
  change full.2.tree full.1 = withGivens st sig obligations at htree
  obtain ⟨ws, st', hmapping, hle, hlen, hnodup, hletters⟩ :=
    letterMapping_spec (full.2.collectVars full.1) full.2
  have hvars : ∀ w ∈ ws, st'.isVar w = true := fun w hw => by
    obtain ⟨i, hi⟩ := hletters w hw
    rw [Store.isVar, hi]
    rfl
  obtain ⟨ρ, hinj, -, -, hresult⟩ := renames_substituteAll hle hlt hnodup hvars hlen
  have hrun : generalize ty obligations st =
      substituteAll ((full.2.collectVars full.1).zip ws) full.1 st' := by
    rw [generalize_eq hsig, StateM.bind_apply, hmapping]
  rw [hrun]
  rw [htree] at hinj hresult
  exact ⟨ρ, hinj, hresult⟩

/-- Generalizing a function type with the open obligations for its callers gives its general form. -/
theorem isGeneralForm_generalize {members retained : List TypeId} (hty : ty < st.size)
    (hsig : st.signature? ty = some sig) (hmembers : ∀ m ∈ members, m < st.size)
    (hretained : ∀ o ∈ retained, o < st.size) :
    let final := generalize ty (st.givensFor ty members retained) st
    final.1 < final.2.size ∧ (final.2.tree final.1).IsGeneralForm (st.tree ty)
      (members.map st.tree) (retained.map st.tree) := by
  intro final
  have hgivens := fun o => @mem_givensFor st ty o members retained hty hmembers hretained
  obtain ⟨ρ, hinj, hlt, htree⟩ := @renames_generalize st ty sig (st.givensFor ty members retained)
    hty hsig fun o ho => hretained o ((hgivens o).mp ho).1
  refine ⟨hlt, sig.map st.tree, (allGivens sig.givens (st.givensFor ty members retained)).map
    st.tree, ρ, ?_, fun o => ?_, hinj, htree⟩
  · have hshape := shape_of_signature? hsig
    rw [tree_of_not_qualified (by rw [hshape]; rfl), hshape]
    rfl
  · simp only [List.mem_map, mem_allGivens, hgivens, Signature.map]
    constructor
    · rintro ⟨id, hid | ⟨hid, hasked⟩, rfl⟩
      · exact .inl ⟨id, hid, rfl⟩
      · exact .inr ⟨⟨id, hid, rfl⟩, hasked⟩
    · rintro (⟨id, hid, rfl⟩ | ⟨⟨id, hid, rfl⟩, hasked⟩)
      · exact ⟨id, .inl hid, rfl⟩
      · exact ⟨id, .inr ⟨hid, hasked⟩, rfl⟩

end StoreM

end ConstraintTyping
