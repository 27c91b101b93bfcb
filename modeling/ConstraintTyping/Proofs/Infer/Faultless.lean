import ConstraintTyping.Proofs.Infer.Group

/-!
# The error type does not come up by itself

Where a walk reports nothing, it asks for nothing and records nothing in which the error type occurs,
unless it was there before.  Solving does not bring it in either.
-/

namespace ConstraintTyping

open TypeTree

/-- The error type is in no declaration and in no type of a name. -/
structure Surroundings.Faultless (W : Surroundings) : Prop where
  fields : ∀ {name : Name} {p : ProductDecl}, W.declarations.product? name = some p →
    ∀ t ∈ p.fields, t.Faultless
  names : ∀ {name : Name} {s : Scheme}, W.names name = some s → s.type.Faultless

/-- The error type is in no type of a local name. -/
def Env.Faultless (Γ : Env) : Prop := ∀ b ∈ Γ, b.2.Faultless

theorem Env.Faultless.lookup {Γ : Env} (h : Γ.Faultless) {name : Name} {t : TypeTree}
    (hlookup : Γ.lookup name = some t) : t.Faultless := by
  obtain ⟨l₁, l₂, hΓ, -⟩ := List.lookup_eq_some_iff.mp hlookup
  exact h (name, t) (by rw [hΓ]; simp)

theorem Env.Faultless.bindParams {Γ : Env} (h : Γ.Faultless) (params : List Param)
    {ts : List TypeTree} (hts : ∀ t ∈ ts, t.Faultless) : (Γ.bindParams params ts).Faultless := by
  intro b hb
  rcases List.mem_append.mp hb with hb | hb
  · exact hts _ (List.of_mem_zip (List.mem_reverse.mp hb)).2
  · exact h b hb

namespace Found

variable {S S' : Found}

/-- The error type is in nothing that was asked for or recorded. -/
structure Faultless (S : Found) : Prop where
  equations : ∀ p ∈ S.equations, p.1.Faultless ∧ p.2.Faultless
  records : ∀ r ∈ S.records, r.2.Faultless

theorem Faultless.widen (h : S.Faultless) (hw : S.Widens S') : S'.Faultless where
  equations := by rw [hw.equations]; exact h.equations
  records := by rw [hw.records]; exact h.records

theorem Faultless.askAll (h : S.Faultless) {pairs : List (TypeTree × TypeTree)}
    (hpairs : ∀ p ∈ pairs, p.1.Faultless ∧ p.2.Faultless) : (S.askAll pairs).Faultless where
  equations := List.forall_mem_append.mpr ⟨h.equations, hpairs⟩
  records := h.records

theorem Faultless.ask (h : S.Faultless) {l r : TypeTree} (hl : l.Faultless) (hr : r.Faultless) :
    (S.ask l r).Faultless :=
  h.askAll (show ∀ p ∈ [(l, r)], p.1.Faultless ∧ p.2.Faultless by simpa using ⟨hl, hr⟩)

theorem Faultless.record (h : S.Faultless) (id : ExprId) {t : TypeTree} (ht : t.Faultless) :
    (S.record id t).Faultless where
  equations := h.equations
  records := List.forall_mem_append.mpr ⟨h.records, by simpa using ht⟩

end Found

theorem LiteralHas.faultless {form : ExprForm} {t : TypeTree} (h : LiteralHas form t) :
    t.Faultless := by
  cases h with
  | intSuffix h _ => exact faultless_prim.mpr (Prim.ne_error_of_ofName? h)
  | floatSuffix h _ => exact faultless_prim.mpr (Prim.ne_error_of_ofName? h)
  | string => exact faultless_mk.mpr ⟨rfl, by simp [Shape.children, faultless_prim]⟩
  | _ => exact faultless_prim.mpr (by decide)

theorem TypeTree.faultless_function {sig : Signature TypeTree} :
    Faultless (mk (.function sig)) ↔ sig.ret.Faultless ∧ (∀ t ∈ sig.params, t.Faultless) ∧
      ∀ t ∈ sig.givens, t.Faultless := by
  rw [faultless_mk]
  simp [Shape.children, Signature.children, Shape.isError, or_imp, forall_and]

theorem TypeTree.faultless_pointer {t : TypeTree} : Faultless (mk (.pointer t)) ↔ t.Faultless := by
  rw [faultless_mk]
  simp [Shape.children, Shape.isError]

theorem TypeTree.Faultless.rename {t : TypeTree} (h : t.Faultless) (ρ : VarIdent → VarIdent) :
    (t.subst fun x => var (ρ x)).Faultless :=
  Everywhere.subst h fun x _ => faultless_var (ρ x)

theorem faultless_vars (xs : List VarIdent) : ∀ t ∈ xs.map var, t.Faultless := by
  simp

section Walk

variable {W : Surroundings} {S S' : Found}

theorem Found.Opens.faultless {name : Name} {p : ProductDecl} {xs : List VarIdent}
    (h : S.Opens S' W.declarations name p xs) (hW : W.Faultless) :
    (∀ t ∈ p.openFields xs, t.Faultless) ∧ (p.result name (xs.map var)).Faultless := by
  constructor
  · intro t ht
    obtain ⟨u, hu, rfl⟩ := List.mem_map.mp ht
    exact (hW.fields h.declared u hu).assign _ (faultless_vars xs)
  · unfold ProductDecl.result
    split <;> exact faultless_mk.mpr ⟨rfl, faultless_vars xs⟩

theorem CallFinds.faultless {id : ExprId} {f t : TypeTree} {ts : List TypeTree}
    (h : CallFinds id S f ts t S') (hS : S.Faultless) (hf : f.Faultless)
    (hts : ∀ t ∈ ts, t.Faultless) : S'.Faultless ∧ t.Faultless := by
  cases h with
  | unknown _ hx =>
    refine ⟨(hS.widen hx.toWidens).ask hf (faultless_function.mpr ?_), faultless_var _⟩
    exact ⟨faultless_var _, hts, by simp⟩
  | @known S₁ _ sig _ x _ hsite hx =>
    obtain ⟨hret, hparams, -⟩ := faultless_function.mp hf
    have hS₁ : S₁.Faultless := by
      have hask : (S.askAll (sig.params.zip ts)).Faultless := hS.askAll fun p hp =>
        ⟨hparams _ (List.of_mem_zip hp).1, hts _ (List.of_mem_zip hp).2⟩
      rw [hsite]
      split
      · exact hask
      · exact ⟨hask.equations, hask.records⟩
    exact ⟨(hS₁.widen hx.toWidens).ask (faultless_var x) hret, faultless_var x⟩

theorem ParamsFind.faultless {D : Declarations} {params : List Param} {ts : List TypeTree}
    (h : ParamsFind D S params ts S') : ∀ t ∈ ts, t.Faultless := by
  induction h with
  | nil => simp
  | written _ ht _ ih => exact List.forall_mem_cons.mpr ⟨ht.denotes.faultless faultless_var, ih⟩
  | plain _ _ _ ih => exact List.forall_mem_cons.mpr ⟨faultless_var _, ih⟩

mutual

/-- A walk over an expression keeps the error type out. -/
theorem Finds.faultless (hW : W.Faultless) {S S' : Found} {Γ Δ : Env} {e : Expr} {t : TypeTree}
    (h : Finds W S Γ e t S' Δ) (hS : S.Faultless) (hΓ : Γ.Faultless) :
    S'.Faultless ∧ t.Faultless ∧ Δ.Faultless := by
  cases h with
  | @mk _ _ _ _ id _ _ _ hform _ =>
    obtain ⟨hS', ht, hΔ⟩ := hform.faultless hW hS hΓ
    exact ⟨hS'.record id ht, ht, hΔ⟩

theorem FormFinds.faultless (hW : W.Faultless) {id : ExprId} {S S' : Found} {Γ Δ : Env}
    {form : ExprForm} {t : TypeTree} (h : FormFinds W id S Γ form t S' Δ) (hS : S.Faultless)
    (hΓ : Γ.Faultless) : S'.Faultless ∧ t.Faultless ∧ Δ.Faultless := by
  have hbool : (prim .bool).Faultless := faultless_prim.mpr (by decide)
  have hunit : (prim .unit).Faultless := faultless_prim.mpr (by decide)
  cases h with
  | literal h => exact ⟨hS, h.faultless, hΓ⟩
  | localName h => exact ⟨hS, hΓ.lookup h, hΓ⟩
  | generalName _ hname ht =>
    obtain ⟨ρ, -, rfl⟩ := ht.renames
    exact ⟨hS.widen ht.toWidens, (hW.names hname).rename ρ, hΓ⟩
  | fixedName _ hname => exact ⟨hS, hW.names hname, hΓ⟩
  | call hcallee hargs hcall =>
    obtain ⟨hS₁, hf, hΓ₁⟩ := hcallee.faultless hW hS hΓ
    obtain ⟨hS₂, hts, hΔ⟩ := hargs.faultless hW hS₁ hΓ₁
    obtain ⟨hS', ht⟩ := hcall.faultless hS₂ hf hts
    exact ⟨hS', ht, hΔ⟩
  | logical _ hleft hright =>
    obtain ⟨hS₁, hl, hΓ₁⟩ := hleft.faultless hW hS hΓ
    obtain ⟨hS₂, hr, hΔ⟩ := hright.faultless hW hS₁ hΓ₁
    exact ⟨(hS₂.ask hbool hl).ask hbool hr, hbool, hΔ⟩
  | overloaded _ hleft hright hx =>
    obtain ⟨hS₁, hl, hΓ₁⟩ := hleft.faultless hW hS hΓ
    obtain ⟨hS₂, hr, hΔ⟩ := hright.faultless hW hS₁ hΓ₁
    refine ⟨((hS₂.widen hx.toWidens).ask (faultless_var _) hl).ask (faultless_var _) hr, ?_, hΔ⟩
    split
    · exact hbool
    · exact faultless_var _
  | neg hoperand hx =>
    obtain ⟨hS₁, hu, hΔ⟩ := hoperand.faultless hW hS hΓ
    exact ⟨(hS₁.widen hx.toWidens).ask (faultless_var _) hu, faultless_var _, hΔ⟩
  | not hoperand =>
    obtain ⟨hS₁, hu, hΔ⟩ := hoperand.faultless hW hS hΓ
    exact ⟨hS₁.ask hbool hu, hbool, hΔ⟩
  | addressOf hoperand =>
    obtain ⟨hS₁, hu, hΔ⟩ := hoperand.faultless hW hS hΓ
    exact ⟨hS₁, faultless_pointer.mpr hu, hΔ⟩
  | deref hoperand hx =>
    obtain ⟨hS₁, hu, hΔ⟩ := hoperand.faultless hW hS hΓ
    exact ⟨(hS₁.widen hx.toWidens).ask (faultless_pointer.mpr (faultless_var _)) hu,
      faultless_var _, hΔ⟩
  | field hreceiver _ hopens _ ht =>
    obtain ⟨hS₁, hr, hΔ⟩ := hreceiver.faultless hW hS hΓ
    refine ⟨(hS₁.widen hopens.toWidens).ask ?_ hr, ?_, hΔ⟩
    · exact faultless_mk.mpr ⟨rfl, faultless_vars _⟩
    · exact (hopens.faultless hW).1 _ (List.mem_of_getElem? ht)
  | construct hitems hopens _ =>
    obtain ⟨hS₁, hts, hΔ⟩ := hitems.faultless hW hS hΓ
    obtain ⟨hfields, hresult⟩ := hopens.faultless hW
    refine ⟨(hS₁.widen hopens.toWidens).askAll fun p hp => ?_, hresult, hΔ⟩
    exact ⟨hfields _ (List.of_mem_zip hp).1, hts _ (List.of_mem_zip hp).2⟩
  | tuple hitems =>
    obtain ⟨hS', hts, hΔ⟩ := hitems.faultless hW hS hΓ
    exact ⟨hS', faultless_tuple.mpr hts, hΔ⟩
  | array hx hitems =>
    obtain ⟨hS', hΔ⟩ := hitems.faultless hW (hS.widen hx.toWidens) hΓ (faultless_var _)
    exact ⟨hS', faultless_mk.mpr ⟨rfl, by simp [Shape.children]⟩, hΔ⟩
  | @block _ _ _ _ _ _ ts hitems =>
    obtain ⟨hS', hts, -⟩ := hitems.faultless hW hS hΓ
    refine ⟨hS', ?_, hΓ⟩
    rw [List.getLastD_eq_getLast?]
    cases hlast : ts.getLast? with
    | none => exact hunit
    | some t => exact hts t (List.mem_of_getLast? hlast)
  | ifThen hcondition hthen =>
    obtain ⟨hS₁, hc, hΓ₁⟩ := hcondition.faultless hW hS hΓ
    obtain ⟨hS₂, ht, hΔ⟩ := hthen.faultless hW (hS₁.ask hbool hc) hΓ₁
    exact ⟨hS₂.ask hunit ht, hunit, hΔ⟩
  | ifElse hcondition hthen helse =>
    obtain ⟨hS₁, hc, hΓ₁⟩ := hcondition.faultless hW hS hΓ
    obtain ⟨hS₂, ht, hΓ₂⟩ := hthen.faultless hW (hS₁.ask hbool hc) hΓ₁
    obtain ⟨hS₃, he, hΔ⟩ := helse.faultless hW hS₂ hΓ₂
    exact ⟨hS₃.ask ht he, ht, hΔ⟩
  | select hscrutinee hx harms =>
    obtain ⟨hS₁, hs, hΔ⟩ := hscrutinee.faultless hW hS hΓ
    exact ⟨harms.faultless hW (hS₁.widen hx.toWidens) hΔ hs (faultless_var _), faultless_var _, hΔ⟩
  | loop hcondition hbody =>
    obtain ⟨hS₁, hc, hΓ₁⟩ := hcondition.faultless hW hS hΓ
    obtain ⟨hS', -, hΔ⟩ := hbody.faultless hW (hS₁.ask hbool hc) hΓ₁
    exact ⟨hS', hunit, hΔ⟩
  | define hinit =>
    obtain ⟨hS', ht, hΔ⟩ := hinit.faultless hW hS hΓ
    exact ⟨hS', hunit, List.forall_mem_cons.mpr ⟨ht, hΔ⟩⟩
  | defineAs hinit hwritten =>
    obtain ⟨hS₁, hu, hΔ⟩ := hinit.faultless hW hS hΓ
    have ht := hwritten.denotes.faultless faultless_var
    exact ⟨(hS₁.widen hwritten.toWidens).ask ht hu, hunit, List.forall_mem_cons.mpr ⟨ht, hΔ⟩⟩
  | assign htarget hvalue =>
    obtain ⟨hS₁, ht, hΓ₁⟩ := htarget.faultless hW hS hΓ
    obtain ⟨hS₂, hv, hΔ⟩ := hvalue.faultless hW hS₁ hΓ₁
    exact ⟨hS₂.ask ht hv, hunit, hΔ⟩
  | ascribe hexpr hwritten =>
    obtain ⟨hS₁, hu, hΔ⟩ := hexpr.faultless hW hS hΓ
    have ht := hwritten.denotes.faultless faultless_var
    exact ⟨(hS₁.widen hwritten.toWidens).ask ht hu, ht, hΔ⟩
  | lambda hparams hbody =>
    have hts := hparams.faultless
    obtain ⟨hS', ht, -⟩ := hbody.faultless hW (hS.widen hparams.widens) (hΓ.bindParams _ hts)
    exact ⟨hS', faultless_function.mpr ⟨ht, hts, by simp⟩, hΓ⟩

theorem AllFind.faultless (hW : W.Faultless) {S S' : Found} {Γ Δ : Env} {es : List Expr}
    {ts : List TypeTree} (h : AllFind W S Γ es ts S' Δ) (hS : S.Faultless) (hΓ : Γ.Faultless) :
    S'.Faultless ∧ (∀ t ∈ ts, t.Faultless) ∧ Δ.Faultless := by
  cases h with
  | nil => exact ⟨hS, by simp, hΓ⟩
  | cons he hrest =>
    obtain ⟨hS₁, ht, hΓ₁⟩ := he.faultless hW hS hΓ
    obtain ⟨hS', hts, hΔ⟩ := hrest.faultless hW hS₁ hΓ₁
    exact ⟨hS', List.forall_mem_cons.mpr ⟨ht, hts⟩, hΔ⟩

theorem ElementsFind.faultless (hW : W.Faultless) {elem : TypeTree} {S S' : Found} {Γ Δ : Env}
    {es : List Expr} {ts : List TypeTree} (h : ElementsFind W elem S Γ es ts S' Δ)
    (hS : S.Faultless) (hΓ : Γ.Faultless) (helem : elem.Faultless) :
    S'.Faultless ∧ Δ.Faultless := by
  cases h with
  | nil => exact ⟨hS, hΓ⟩
  | cons he hrest =>
    obtain ⟨hS₁, ht, hΓ₁⟩ := he.faultless hW hS hΓ
    exact hrest.faultless hW (hS₁.ask helem ht) hΓ₁ helem

theorem ArmsFind.faultless (hW : W.Faultless) {s t : TypeTree} {S S' : Found} {Γ : Env}
    {arms : List Arm} (h : ArmsFind W s t S Γ arms S') (hS : S.Faultless) (hΓ : Γ.Faultless)
    (hs : s.Faultless) (ht : t.Faultless) : S'.Faultless := by
  cases h with
  | nil => exact hS
  | cons hpattern hbody hrest =>
    obtain ⟨hS₁, hΓ₁⟩ := hpattern.faultless hW hS hΓ hs
    obtain ⟨hS₂, hb, -⟩ := hbody.faultless hW hS₁ hΓ₁
    exact hrest.faultless hW (hS₂.ask ht hb) hΓ hs ht

theorem PatternFinds.faultless (hW : W.Faultless) {S S' : Found} {Γ Δ : Env} {p : Pattern}
    {s : TypeTree} (h : PatternFinds W S Γ p s S' Δ) (hS : S.Faultless) (hΓ : Γ.Faultless)
    (hs : s.Faultless) : S'.Faultless ∧ Δ.Faultless := by
  cases h with
  | wildcard => exact ⟨hS, hΓ⟩
  | binding => exact ⟨hS, List.forall_mem_cons.mpr ⟨hs, hΓ⟩⟩
  | literal hexpr =>
    obtain ⟨hS₁, ht, hΔ⟩ := hexpr.faultless hW hS hΓ
    exact ⟨hS₁.ask hs ht, hΔ⟩
  | tuple hxs hitems =>
    have hvars := faultless_vars
    exact hitems.faultless hW ((hS.widen hxs.toWidens).ask hs (faultless_tuple.mpr (hvars _))) hΓ
      (hvars _)
  | tag hopens hitems =>
    obtain ⟨hfields, hresult⟩ := hopens.faultless hW
    exact hitems.faultless hW ((hS.widen hopens.toWidens).ask hs hresult) hΓ hfields

theorem PatternsFind.faultless (hW : W.Faultless) {S S' : Found} {Γ Δ : Env} {ps : List Pattern}
    {ts : List TypeTree} (h : PatternsFind W S Γ ps ts S' Δ) (hS : S.Faultless) (hΓ : Γ.Faultless)
    (hts : ∀ t ∈ ts, t.Faultless) : S'.Faultless ∧ Δ.Faultless := by
  cases h with
  | nil => exact ⟨hS, hΓ⟩
  | cons hp hrest =>
    obtain ⟨ht, hts⟩ := List.forall_mem_cons.mp hts
    obtain ⟨hS₁, hΓ₁⟩ := hp.faultless hW hS hΓ ht
    exact hrest.faultless hW hS₁ hΓ₁ hts

end

/-- The bodies of a group whose functions have types without the error type. -/
theorem GroupFinds.faultless {T : Store} {members : List (FunctionDecl × TypeId)}
    (hW : W.Faultless) (h : GroupFinds W T S members S') (hS : S.Faultless)
    (hmembers : ∀ m ∈ members, (T.tree m.2).Faultless) : S'.Faultless := by
  induction h with
  | nil => exact hS
  | @cons S S₁ S' f ty sig body rest hsig hbody hfinds _ ih =>
    obtain ⟨hty, hrest⟩ := List.forall_mem_cons.mp hmembers
    have hshape := Store.shape_of_signature? hsig
    rw [Store.tree_of_not_qualified (by rw [hshape]; rfl), hshape] at hty
    obtain ⟨hret, hparams, -⟩ := faultless_function.mp hty
    obtain ⟨t, S₂, Δ, hwalk, rfl⟩ := hfinds
    obtain ⟨hS₂, ht, -⟩ := hwalk.faultless hW hS (Env.Faultless.bindParams (by simp [Env.Faultless])
      f.params hparams)
    exact ih (hS₂.ask hret ht) hrest

end Walk

/-- Bindings that solve equations without the error type are without it. -/
theorem SolvesInOrder.faultless {limit : Nat} {bs last : Bound}
    {eqs : List (TypeTree × TypeTree)} (h : SolvesInOrder limit bs eqs last)
    (heqs : ∀ p ∈ eqs, p.1.Faultless ∧ p.2.Faultless) (hbs : ∀ p ∈ bs, p.2.Faultless) :
    ∀ p ∈ last, p.2.Faultless := by
  induction h with
  | nil => exact hbs
  | @cons bs new last l r rest hunify _ ih =>
    obtain ⟨⟨hl, hr⟩, heqs⟩ := List.forall_mem_cons.mp heqs
    refine ih heqs (List.forall_mem_append.mpr ⟨fun p hp => ?_, hbs⟩)
    have hfound := unifyPairs_inherited inherited_faultless (List.forall_mem_singleton.mpr
      ⟨inherited_faultless.applyAll hl hbs, inherited_faultless.applyAll hr hbs⟩) (by simp) hunify
    exact (hfound p hp).2

end ConstraintTyping
