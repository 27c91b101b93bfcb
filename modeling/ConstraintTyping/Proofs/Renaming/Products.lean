import ConstraintTyping.Proofs.Renaming.Declared

/-!
# Products at fresh variables side by side

A field access, a construction and a tag pattern take a declared product at fresh variables.  The
fields of such a product are the declared ones with the parameters replaced.  A variable of a
declared field that is no parameter is not replaced: it is shared by everything that comes by the
field.  The products that two stores in lockstep make are therefore alike under a renaming that
leaves these variables alone.
-/

namespace ConstraintTyping

open Store StoreM TypeTree

/-- A variable of a tree with parameters replaced is one of an argument, or it was there and is no
parameter. -/
theorem TypeTree.occurs_assign {t : TypeTree} {ps : List VarIdent} {us : List TypeTree} {x : VarIdent}
    (hlen : ps.length = us.length) (h : (t.subst (assign var ps us)).Occurs x) :
    (∃ u ∈ us, u.Occurs x) ∨ (t.Occurs x ∧ x ∉ ps) := by
  obtain ⟨y, hy, hx⟩ := (occurs_subst _).mp h
  unfold assign at hx
  cases hl : (ps.zip us).lookup y with
  | some u =>
    rw [hl] at hx
    obtain ⟨l₁, l₂, hl, -⟩ := List.lookup_eq_some_iff.mp hl
    have hmem : (y, u) ∈ ps.zip us := by rw [hl]; simp
    exact .inl ⟨u, (List.of_mem_zip hmem).2, hx⟩
  | none =>
    rw [hl, Option.getD_none, occurs_var] at hx
    subst hx
    refine .inr ⟨hy, fun hmem => ?_⟩
    rw [← List.map_fst_zip hlen.le] at hmem
    obtain ⟨p, hp, hpx⟩ := List.mem_map.mp hmem
    exact absurd hpx.symm (by simpa using List.lookup_eq_none_iff.mp hl p hp)

namespace Renaming

variable {R : Renaming} {base : Store} {w w' : Stores} {a b v v' : TypeId} {as bs : List TypeId}
  {name : Name} {d : TypeId} {params : List TypeId} {f p p' : TypeId}
  {decl decl' body body' : ProductBody}

/-- The renaming that takes the fresh variables after one count to those after another. -/
def shift (m n : Nat) : Renaming where
  name
    | .named name => .named name
    | .fresh i => .fresh (i - m + n)
  dom := { x | ∃ k, x = .fresh (m + k) }
  injOn := by
    rintro _ ⟨k, rfl⟩ _ ⟨l, rfl⟩ h
    simpa using h

theorem lockstep_shift (w : Stores) :
    (shift w.1.table.freshCount w.2.table.freshCount).Lockstep w :=
  fun k => ⟨⟨k, rfl⟩, by simp [shift, Nat.add_comm]⟩

/-- Replacing parameters of one type by arguments that are alike. -/
theorem alike_of_replaced (hf : R.Alike w f f) (hparams : ∀ q ∈ params, R.Alike w q q)
    (hargs : R.AllAlike w as bs) (h : DeclM.Replaced (params.zip as) w.1 f p)
    (h' : DeclM.Replaced (params.zip bs) w.2 f p') : R.Alike w p p' := by
  -- fields are replaced in stores on the way to `w`, which have both replacements already
  obtain ⟨s, hfs, hs, rfl, hle⟩ := h
  obtain ⟨t, hft, ht, rfl, hle'⟩ := h'
  have hw : (s, t) ≤ w :=
    ⟨le_trans (builds_substituteAll _ _ s).1 hle, le_trans (builds_substituteAll _ _ t).1 hle'⟩
  have hpairs : List.Forall₂ (fun q q' => R.Alike w q.1 q'.1 ∧ R.Alike (s, t) q.2 q'.2)
      (params.zip as) (params.zip bs) := by
    have hzip := rel_zip (List.forall₂_same.mpr hparams) hargs
    clear hle hle'
    generalize params.zip as = ps at hs hzip
    generalize params.zip bs = qs at ht hzip
    induction hzip with
    | nil => exact .nil
    | cons hq _ ih =>
      obtain ⟨hs, hss⟩ := List.forall_mem_cons.mp hs
      obtain ⟨ht, hts⟩ := List.forall_mem_cons.mp ht
      exact .cons ⟨hq.1, hq.2.of_ge hw hs ht⟩ (ih hss hts)
  have hcouples : (shift s.table.freshCount t.table.freshCount).Couples
      (substituteAll (params.zip as) f) (substituteAll (params.zip bs) f) (s, t) R.Alike := by
    have hempty : (params.zip bs).isEmpty = (params.zip as).isEmpty := by
      rw [Bool.eq_iff_iff, List.isEmpty_iff_length_eq_zero, List.isEmpty_iff_length_eq_zero,
        hpairs.length_eq]
    unfold substituteAll
    rw [hempty]
    split
    · exact coupled_pure (hf.of_ge hw hfs hft)
    · refine couples_mapVars (fun u u' _ hu => ?_) (hf.of_ge hw hfs hft)
      rcases AllAlike.lookup hpairs (hu.of_le hw) with ⟨hl, hl'⟩ | ⟨c, c', hl, hl', hc⟩
      · rw [hl, hl']
        exact hu
      · rw [hl, hl']
        exact hc
  obtain ⟨w', -, hin, halike⟩ := hcouples _ _ ⟨rfl, rfl, lockstep_shift (s, t)⟩
  refine halike.of_le ⟨?_, ?_⟩
  · rw [hin.left]
    exact hle
  · rw [hin.right]
    exact hle'

/-! ## Renamings that suit what is declared -/

/-- A renaming suits the declarations of a store: it takes named variables to named ones and fresh
variables to fresh ones, and it leaves alone the fresh variables of the store and the variables of
declared fields that are no parameters. -/
structure Suits (R : Renaming) (base : Store) : Prop where
  named : ∀ {n : Name}, .named n ∈ R.dom → ∃ m, R.name (.named n) = .named m
  fresh : ∀ {n : Nat}, .fresh n ∈ R.dom → ∃ m, R.name (.fresh n) = .fresh m
  old : ∀ {n : Nat}, .fresh n ∈ base.vars → .fresh n ∈ R.dom ∧ R.name (.fresh n) = .fresh n
  field : ∀ {name : Name} {d : TypeId} {params : List TypeId} {body : ProductBody},
    base.Declares name d .product params → base.productBody? d = some body → ∀ f ∈ body.fields,
      ∀ n, (base.tree f).Occurs (.named n) → .named n ∉ base.idents params →
        .named n ∈ R.dom ∧ R.name (.named n) = .named n

theorem suits_refl (base : Store) : refl.Suits base where
  named {n} _ := ⟨n, rfl⟩
  fresh {n} _ := ⟨n, rfl⟩
  old _ := ⟨trivial, rfl⟩
  field _ _ _ _ _ _ _ := ⟨trivial, rfl⟩

namespace Suits

/-- The same new names for fresh variables, and none for named ones. -/
def onFresh (h : R.Suits base) : Renaming where
  name
    | .named n => .named n
    | .fresh n => R.name (.fresh n)
  dom := { x | ∀ n, x = .fresh n → x ∈ R.dom }
  injOn := by
    rintro (m | m) hm (n | n) hn heq
    · exact heq
    · obtain ⟨k, hk⟩ := h.fresh (hn n rfl)
      cases heq.trans hk
    · obtain ⟨k, hk⟩ := h.fresh (hm m rfl)
      cases heq.symm.trans hk
    · exact R.injOn (hm m rfl) (hn n rfl) heq

variable (h : R.Suits base)

include h

/-- A type of the common store is like itself when named variables keep their names. -/
theorem alike_self (hle : base ≤ w.1) (hle' : base ≤ w.2) (ha : a < base.size) :
    h.onFresh.Alike w a a := by
  refine (alike_refl hle hle' ha).congr fun x hx => ?_
  cases x with
  | named n => exact ⟨fun _ h => (nomatch h), rfl⟩
  | fresh n =>
    rw [tree_of_le hle ha] at hx
    obtain ⟨hmem, hname⟩ := h.old (mem_vars_of_occurs hx)
    exact ⟨fun _ _ => hmem, hname⟩

/-- The bodies of one product at fresh variables that stand for each other. -/
theorem alikeFields (hbranches : Branches base w) (hd : base.Declares name d .product params)
    (hargs : R.AllAlike w as bs) (hfresh : ∀ a ∈ as, ∃ k, w.1.shape a = .var (.fresh k))
    (hv : DeclM.IsProductAt w.1 name d params as decl v body)
    (hv' : DeclM.IsProductAt w.2 name d params bs decl' v' body') :
    R.AllAlike w body.fields body'.fields := by
  obtain rfl : decl' = decl := by
    have hbody := hv'.declBody
    rw [hbranches.productBody?_eq hd, hv.declBody] at hbody
    exact (Option.some.inj hbody).symm
  have hle := hbranches.left.1.le
  have hle' := hbranches.right.1.le
  obtain ⟨decl₀, hdecl₀⟩ := hbranches.complete.product hd
  obtain rfl : decl₀ = decl' := Option.some.inj
    ((hbranches.left.1.productBody? hd.declared hdecl₀).symm.trans hv.declBody)
  have hlt := hbranches.coherent.fields_lt hdecl₀
  have hargs₀ : h.onFresh.AllAlike w as bs := forall₂_of_mem hargs fun a ha b hab =>
    hab.congr fun x hx => by
      obtain ⟨k, hk⟩ := hfresh a ha
      have hoccurs := hab.occurs x hx
      rw [tree_of_var hk, occurs_var] at hx
      subst hx
      exact ⟨fun _ _ => hoccurs, rfl⟩
  have hparams : ∀ q ∈ params, h.onFresh.Alike w q q := fun q hq =>
    h.alike_self hle hle' (hd.params_lt q hq)
  have htrees := hv.isBodyAt.fields
  rw [← List.forall₂_eq_eq_eq, List.forall₂_map_left_iff, List.forall₂_map_right_iff] at htrees
  refine forall₂_join (forall₂_and htrees.flip hv.isBodyAt.replaced) hv'.isBodyAt.replaced
    fun f hf p p' hp hp' => ?_
  refine (alike_of_replaced (h.alike_self hle hle' (hlt f hf)) hparams hargs₀ hp.2 hp').congr
    fun x hx => ?_
  -- a variable of the new field is one of an argument, or one of the declared field
  rw [hp.1, tree_of_le hle (hlt f hf), idents_of_le hle hd.params_lt] at hx
  have hlen : (base.idents params).length = (as.map w.1.tree).length := by
    rw [List.length_map, ← idents_of_le hle hd.params_lt]
    exact (hv.read hbranches.left.2 (hbranches.declares_left hd)).1
  rcases occurs_assign hlen hx with ⟨_, hu, hx⟩ | ⟨hx, hparam⟩
  · obtain ⟨a, ha, rfl⟩ := List.mem_map.mp hu
    obtain ⟨b, -, hab⟩ := exists_mem_of_forall₂ hargs.flip ha
    obtain ⟨k, hk⟩ := hfresh a ha
    have hoccurs := hab.occurs x hx
    rw [tree_of_var hk, occurs_var] at hx
    subst hx
    exact ⟨hoccurs, rfl⟩
  · cases x with
    | named n =>
      obtain ⟨hmem, hname⟩ := h.field hd hdecl₀ f hf n hx hparam
      exact ⟨hmem, hname⟩
    | fresh n =>
      have hself := (h.alike_self hle hle' (hlt f hf)).occurs (.fresh n) (by
        rw [tree_of_le hle (hlt f hf)]
        exact hx)
      exact ⟨hself n rfl, rfl⟩

end Suits

/-! ## Making the products -/

/-- Bodies of products with the same field names over types that are alike. -/
structure AlikeBody (R : Renaming) (w : Stores) (body body' : ProductBody) : Prop where
  fieldNames : body'.fieldNames = body.fieldNames
  fields : R.AllAlike w body.fields body'.fields
  parent : Option.Rel (R.Alike w) body.parent body'.parent

theorem alikeBody_of_isProductAt (h : R.Suits base) (hbranches : Branches base w)
    (hd : base.Declares name d .product params) (hargs : R.AllAlike w as bs)
    (hfresh : ∀ a ∈ as, ∃ k, w.1.shape a = .var (.fresh k))
    (hv : DeclM.IsProductAt w.1 name d params as decl v body)
    (hv' : DeclM.IsProductAt w.2 name d params bs decl' v' body') : R.AlikeBody w body body' := by
  obtain rfl : decl' = decl := by
    have hbody := hv'.declBody
    rw [hbranches.productBody?_eq hd, hv.declBody] at hbody
    exact (Option.some.inj hbody).symm
  refine ⟨hv'.isBodyAt.fieldNames.trans hv.isBodyAt.fieldNames.symm,
    h.alikeFields hbranches hd hargs hfresh hv hv', ?_⟩
  cases hp : body.parent with
  | none =>
    cases hp' : body'.parent with
    | none => exact .none
    | some s =>
      obtain ⟨sum, -, hsum, -⟩ := hv'.isBodyAt.parent s hp'
      obtain ⟨s', hs'⟩ := hv.tied sum hsum
      rw [hp] at hs'
      cases hs'
  | some s =>
    obtain ⟨sum, sumName, hsum, hdecl, hinst⟩ := hv.isBodyAt.parent s hp
    obtain ⟨s', hs'⟩ := hv'.tied sum hsum
    obtain ⟨sum', sumName', hsum', hdecl', hinst'⟩ := hv'.isBodyAt.parent s' hs'
    obtain rfl : sum' = sum := Option.some.inj (hsum'.symm.trans hsum)
    have hshape : Shape.sum sumName params = .sum sumName' params :=
      (hbranches.left.1.declares_of hbranches.coherent hdecl).shape.symm.trans
        (hbranches.right.1.declares_of hbranches.coherent hdecl').shape
    obtain ⟨rfl, -⟩ := Shape.sum.inj hshape
    rw [hs']
    exact .some (alike_of_isInstance hinst hinst' hargs)

theorem couplesFrom_freshArgs {α : Type} (xs : List α) :
    R.CouplesFrom base (xs.mapM fun _ => (liftM freshVar : DeclM TypeId)).run
      (xs.mapM fun _ => (liftM freshVar : DeclM TypeId)).run w
      fun w' => RelExcept Eq (R.AllAlike w') := by
  induction xs generalizing w with
  | nil => exact coupled_pureExcept .nil
  | cons x xs ih =>
    rw [List.mapM_cons]
    refine ((R.couples_freshVar w).from builds_freshVar builds_freshVar).lift.bindExcept
      fun w₁ a b _ hab => ?_
    refine ih.bindExcept fun w₂ as bs hle has => ?_
    exact coupled_pureExcept (.cons (hab.of_le hle) has)

/-- The products at fresh variables that two stores come to. -/
def MadeAlike (R : Renaming) (w : Stores) (v v' : TypeId) : Prop :=
  R.Alike w v v' ∧ ∃ body body', w.1.productBody? v = some body ∧ w.2.productBody? v' = some body' ∧
    R.AlikeBody w body body'

/-- The instances of a declared product at variables that are new. -/
theorem couplesFrom_instantiate_new (h : R.Suits base) (hd : base.Declares name d .product params)
    {w₀ : Stores} (hbranches₀ : Branches base w₀) (hargs : R.AllAlike w as bs)
    (hnew : (w₀.1 ≤ w.1 ∧ w.1.nominals = w₀.1.nominals) ∧ NewVars w₀.1 w.1 as ∧
      as.length = params.length)
    (hnew' : (w₀.2 ≤ w.2 ∧ w.2.nominals = w₀.2.nominals) ∧ NewVars w₀.2 w.2 bs ∧
      bs.length = params.length) :
    R.CouplesFrom base (DeclM.instantiate d as).run (DeclM.instantiate d bs).run w fun w' =>
      RelExcept Eq (R.MadeAlike w') := by
  refine couplesFrom_of_run (DeclM.makesNoVar_instantiate d as) (DeclM.makesNoVar_instantiate d bs)
    fun hbranches => ?_
  obtain ⟨⟨hle, hnom⟩, hnew, hlen⟩ := hnew
  obtain ⟨⟨hle', hnom'⟩, hnew', hlen'⟩ := hnew'
  obtain ⟨v, s, hs, hadv, hco, decl, body, hv⟩ :=
    (DeclM.gives_instantiate_newVars hbranches₀.left.2 hbranches₀.complete_left
      (hbranches₀.declares_left hd) hle hnom hnew hlen.symm).exists_ok fun _ h => h
  obtain ⟨v', t, ht, hadv', hco', decl', body', hv'⟩ :=
    (DeclM.gives_instantiate_newVars hbranches₀.right.2 hbranches₀.complete_right
      (hbranches₀.declares_right hd) hle' hnom' hnew' hlen'.symm).exists_ok fun _ h => h
  change (DeclM.instantiate d as).run w.1 = _ at hs
  change (DeclM.instantiate d bs).run w.2 = _ at ht
  rw [hs, ht]
  have hends : DeclM.EndsWell w.1 s := ⟨hadv, hco⟩
  have hends' : DeclM.EndsWell w.2 t := ⟨hadv', hco'⟩
  have hargs' : R.AllAlike (s, t) as bs := hargs.of_le ⟨hadv.le, hadv'.le⟩
  have hfresh : ∀ a ∈ as, ∃ k, s.shape a = .var (.fresh k) := fun a ha => by
    obtain ⟨k, hk⟩ := hnew.fresh a ha
    exact ⟨k, by rw [shape_of_le hadv.le (lt_size_of_shape_var hk), hk]⟩
  exact ⟨hends, hends', .ok ⟨alike_of_isInstance hv.isInstance hv'.isInstance hargs', body, body',
    hv.productBody, hv'.productBody, alikeBody_of_isProductAt h
      (w := (s, t)) (hbranches.trans hends hends') hd hargs' hfresh hv hv'⟩⟩

/-- A declared product at fresh variables is made on both sides, with bodies that are alike. -/
theorem couplesFrom_instantiateAtFresh (h : R.Suits base)
    (hd : base.Declares name d .product params) :
    R.CouplesFrom base (DeclM.instantiateAtFresh d).run (DeclM.instantiateAtFresh d).run w
      fun w' => RelExcept Eq (R.MadeAlike w') := by
  unfold DeclM.instantiateAtFresh
  refine couplesFrom_getExcept fun hbranches => ?_
  -- a declaration is its own
  have hself : ∀ {st : Store}, st.Coherent → st.Declares name d .product params →
      st.declOf? d = some d := fun hco hd => hco.declOf?_self hd.declared
  rw [hself hbranches.left.2 (hbranches.declares_left hd),
    hself hbranches.right.2 (hbranches.declares_right hd)]
  dsimp only
  rw [(hbranches.declares_left hd).nominalArgs, (hbranches.declares_right hd).nominalArgs]
  refine ((couplesFrom_freshArgs params).and_gives
    (fun _ => DeclM.gives_freshVars (E := fun _ => False) params w.1)
    (fun _ => DeclM.gives_freshVars (E := fun _ => False) params w.2)).bindExcept fun w' as bs _ hargs => ?_
  exact couplesFrom_instantiate_new h hd hbranches hargs.1 hargs.2.1 hargs.2.2

end Renaming

end ConstraintTyping
