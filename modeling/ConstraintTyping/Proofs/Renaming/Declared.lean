import ConstraintTyping.Proofs.Infer.Rules
import ConstraintTyping.Proofs.Renaming.Renamed
import ConstraintTyping.Proofs.Renaming.Rewriting
import ConstraintTyping.Proofs.Types.Uniquing

/-!
# Declarations side by side

Two stores that go on from one have its declarations, under the same numbers and with the same
bodies, however many instances either of them has made.  An instance that one of them has and the
other has not is made on the other side without a fresh variable, so making instances at types that
are alike gives types that are alike and leaves the stores in lockstep.
-/

namespace ConstraintTyping

open Store StoreM TypeTree

/-! ## Making no variable -/

namespace StoreM

variable {ε α β : Type}

theorem MakesNoVar.bindExcept {x : ExceptT ε StoreM α} {f : α → ExceptT ε StoreM β}
    (hx : MakesNoVar x.run) (hf : ∀ a, MakesNoVar (f a).run) : MakesNoVar (x >>= f).run := by
  rw [ExceptT.run_bind]
  refine MakesNoVar.bind hx fun r => ?_
  cases r with
  | ok a => exact hf a
  | error e => exact makesNoVar_pure _

theorem makesNoVar_pureExcept (a : α) : MakesNoVar (pure a : ExceptT ε StoreM α).run :=
  makesNoVar_pure _

theorem makesNoVar_throw (e : ε) : MakesNoVar (throw e : ExceptT ε StoreM α).run :=
  makesNoVar_pure _

theorem MakesNoVar.lift {act : StoreM α} (h : act.MakesNoVar) :
    MakesNoVar (liftM act : ExceptT ε StoreM α).run :=
  fun st => h st

theorem makesNoVar_getExcept {f : Store → ExceptT ε StoreM β}
    (hf : ∀ st, ((f st).run st).2.table.freshCount = st.table.freshCount) :
    MakesNoVar (get >>= f).run :=
  hf

/-- A type that is built anew from a shape of the store. -/
theorem freshCount_intern_bind {s : Shape TypeId} {st : Store} {f : TypeId → ExceptT ε StoreM β}
    (hs : s.freshBound ≤ st.table.freshCount) (hf : ∀ ty, MakesNoVar (f ty).run) :
    (((liftM (intern s) : ExceptT ε StoreM TypeId) >>= f).run st).2.table.freshCount =
      st.table.freshCount :=
  (hf _ _).trans (freshCount_intern_of_le hs)

theorem makesNoVar_modifyExcept {f : Store → Store} (hf : ∀ st, (f st).table = st.table) :
    MakesNoVar (modify f : ExceptT ε StoreM PUnit).run :=
  fun st => congrArg (·.freshCount) (hf st)

theorem makesNoVar_mapMExcept {f : α → ExceptT ε StoreM β} (hf : ∀ a, MakesNoVar (f a).run)
    (xs : List α) : MakesNoVar (xs.mapM f).run := by
  induction xs with
  | nil => exact makesNoVar_pureExcept _
  | cons x xs ih =>
    rw [List.mapM_cons]
    exact (hf x).bindExcept fun _ => ih.bindExcept fun _ => makesNoVar_pureExcept _

end StoreM

namespace DeclM

variable {args parts : List TypeId} {d ty : TypeId}

theorem makesNoVar_declarationFor (ty : TypeId) (args : List TypeId) :
    MakesNoVar (declarationFor ty args).run := by
  unfold declarationFor
  refine makesNoVar_getExcept fun st => ?_
  split
  · rfl
  · dsimp only
    split <;> rfl

theorem freshBound_variantShape (s : Shape TypeId) (args : List TypeId) :
    (variantShape s args).freshBound ≤ s.freshBound := by
  unfold variantShape
  split
  · exact Nat.zero_le _
  · exact Nat.zero_le _
  · exact Nat.zero_le _
  · exact le_rfl

theorem makesNoVar_variantWith {inst : TypeId → List TypeId → DeclM TypeId}
    (hinst : ∀ sum args, MakesNoVar (inst sum args).run) (ty : TypeId) (parts args : List TypeId) :
    MakesNoVar (variantWith inst ty parts args).run := by
  have hbind : ∀ (tag sum : TypeId), MakesNoVar (modify (·.bindParent tag sum) : DeclM PUnit).run :=
    fun tag sum => makesNoVar_modifyExcept fun st => table_bindParent st tag sum
  have hbody : ∀ (ty : TypeId) (body : Body), MakesNoVar (modify (ensureBody ty body) : DeclM PUnit).run :=
    fun ty body => makesNoVar_modifyExcept fun st => (sameButBodies_ensureBody ty body st).table
  unfold variantWith
  refine (makesNoVar_declarationFor ty args).bindExcept fun decl => makesNoVar_getExcept fun st => ?_
  split
  · rfl
  split
  · rfl
  refine freshCount_intern_bind ((freshBound_variantShape _ args).trans (freshBound_shape_le st decl))
    fun v => MakesNoVar.bindExcept (x := modify (enterVariant decl args v))
      (makesNoVar_modifyExcept fun _ => rfl) fun _ => ?_
  split
  · dsimp only
    refine (hbody v _).bindExcept fun _ => ?_
    split
    · exact (hinst _ _).bindExcept fun s => (hbind v s).bindExcept fun _ => makesNoVar_pureExcept v
    · exact makesNoVar_pureExcept v
  · refine (hbody v _).bindExcept fun _ => MakesNoVar.bindExcept ?_ fun _ => makesNoVar_pureExcept v
    refine makesNoVar_modifyExcept fun st => ?_
    induction parts generalizing st with
    | nil => rfl
    | cons tag rest ih => exact (ih _).trans (table_bindParent st tag v)
  · exact makesNoVar_pureExcept v

theorem makesNoVar_instantiateWithin (depth : Nat) (ty : TypeId) (args : List TypeId) :
    MakesNoVar (instantiateWithin depth ty args).run := by
  -- one level for each instance on the way to tags and parents
  induction depth generalizing ty args with
  | zero => exact makesNoVar_throw _
  | succ depth ih =>
    unfold instantiateWithin
    refine (makesNoVar_declarationFor ty args).bindExcept fun decl => makesNoVar_getExcept fun st => ?_
    split
    · rfl
    split
    · rfl
    have hfinish := makesNoVar_variantWith ih decl
    dsimp only
    split
    · exact MakesNoVar.bindExcept (makesNoVar_mapMExcept
        (fun f => (makesNoVar_substituteAll _ f).lift) _) (fun parts => hfinish parts args) st
    · exact MakesNoVar.bindExcept (makesNoVar_mapMExcept (fun tag => ih tag args) _)
        (fun parts => hfinish parts args) st
    · exact hfinish [] args st

theorem makesNoVar_instantiate (ty : TypeId) (args : List TypeId) :
    MakesNoVar (instantiate ty args).run :=
  makesNoVar_getExcept fun st => makesNoVar_instantiateWithin _ ty args st

end DeclM

/-! ## Two stores that go on from one -/

/-- Two stores go on from a store in which every declaration has its body. -/
structure Branches (base : Store) (w : Stores) : Prop where
  coherent : base.Coherent
  complete : base.Complete
  left : DeclM.EndsWell base w.1
  right : DeclM.EndsWell base w.2

namespace Branches

variable {base : Store} {w w' : Stores} {name : Name} {d : TypeId} {k : DeclKind}
  {params : List TypeId} {body : ProductBody}

theorem trans (h : Branches base w) (h₁ : DeclM.EndsWell w.1 w'.1) (h₂ : DeclM.EndsWell w.2 w'.2) :
    Branches base w' :=
  ⟨h.coherent, h.complete, ⟨h.left.1.trans h₁.1, h₁.2⟩, ⟨h.right.1.trans h₂.1, h₂.2⟩⟩

/-- Building types on both sides. -/
theorem of_builds {α β : Type} {x : StoreM α} {y : StoreM β} (h : Branches base w) (hx : x.Builds)
    (hy : y.Builds) : Branches base ((x w.1).2, (y w.2).2) :=
  h.trans ⟨.of_nominals (hx w.1).1 (hx w.1).2, h.left.2.of_nominals (hx w.1).1 (hx w.1).2⟩
    ⟨.of_nominals (hy w.2).1 (hy w.2).2, h.right.2.of_nominals (hy w.2).1 (hy w.2).2⟩

variable (h : Branches base w)
include h

theorem declares_left (hd : base.Declares name d k params) : w.1.Declares name d k params :=
  h.left.1.declares hd

theorem declares_right (hd : base.Declares name d k params) : w.2.Declares name d k params :=
  h.right.1.declares hd

theorem complete_left : w.1.Complete := h.left.1.complete h.coherent h.complete

theorem complete_right : w.2.Complete := h.right.1.complete h.coherent h.complete

/-- Both stores declare the same. -/
theorem declared?_eq (name : Name) : w.2.declared? name = w.1.declared? name := by
  rw [h.right.1.declared?, h.left.1.declared?]

theorem exists_declares (hname : w.1.declared? name = some d) :
    ∃ k params, base.Declares name d k params := by
  rw [h.left.1.declared?] at hname
  obtain ⟨-, k, params, hd, -⟩ := h.coherent.declares hname
  exact ⟨k, params, hd⟩

theorem declaredProduct?_eq (name : Name) : w.2.declaredProduct? name = w.1.declaredProduct? name := by
  unfold Store.declaredProduct?
  rw [h.declared?_eq]
  cases hname : w.1.declared? name with
  | none => rfl
  | some d =>
    obtain ⟨k, params, hd⟩ := h.exists_declares hname
    rw [Option.filter_some, Option.filter_some, (h.declares_left hd).kind, (h.declares_right hd).kind]

theorem declares_of_product (hname : w.1.declaredProduct? name = some d) :
    ∃ params, base.Declares name d .product params := by
  obtain ⟨params, hd⟩ := declares_of_declaredProduct? h.left.2 hname
  exact ⟨params, h.left.1.declares_of h.coherent hd⟩

/-- A declaration has the same body in both stores. -/
theorem bodies_eq (hd : base.Declares name d k params) :
    w.2.nominals.bodies[d]? = w.1.nominals.bodies[d]? := by
  obtain ⟨b, hb⟩ : ∃ b, base.nominals.bodies[d]? = some b := by
    cases k with
    | product =>
      obtain ⟨body, hbody⟩ := h.complete.product hd
      exact ⟨_, productBody?_eq_some.mp hbody⟩
    | sum =>
      obtain ⟨tags, htags⟩ := h.complete.sum hd
      exact ⟨_, sumTags?_eq_some.mp htags⟩
  rw [h.left.1.bodies hd.declared hb, h.right.1.bodies hd.declared hb]

theorem productBody?_eq (hd : base.Declares name d k params) :
    w.2.productBody? d = w.1.productBody? d := by
  rw [Store.productBody?, Store.productBody?, h.bodies_eq hd]

theorem sumTags?_eq (hd : base.Declares name d k params) : w.2.sumTags? d = w.1.sumTags? d := by
  rw [Store.sumTags?, Store.sumTags?, h.bodies_eq hd]

theorem nominalName?_eq (hd : base.Declares name d k params) :
    w.2.nominalName? d = w.1.nominalName? d := by
  rw [Store.nominalName?, Store.nominalName?, (h.declares_left hd).shape, (h.declares_right hd).shape]

theorem productsWithField_eq (field : Name) :
    w.2.productsWithField field = w.1.productsWithField field := by
  unfold Store.productsWithField
  have hdeclared : w.2.nominals.declared = w.1.nominals.declared :=
    h.right.1.declared.trans h.left.1.declared.symm
  rw [hdeclared]
  dsimp only
  congr 1
  refine List.filter_congr fun d hmem => ?_
  obtain ⟨⟨name, d'⟩, hpair, rfl⟩ := List.mem_map.mp hmem
  obtain ⟨k, params, hd⟩ := h.exists_declares (Std.HashMap.mem_toList_iff_getElem?_eq_some.mp hpair)
  rw [h.productBody?_eq hd]

/-- The tags that stand beside a declared one are the same in both stores, and declared. -/
theorem siblingTags_eq (hd : base.Declares name d k params) :
    w.2.siblingTags d = w.1.siblingTags d ∧
      ∀ tag ∈ w.1.siblingTags d, ∃ name k params, base.Declares name tag k params := by
  unfold Store.siblingTags
  rw [h.productBody?_eq hd]
  cases hparent : (w.1.productBody? d).bind (·.parent) with
  | none => exact ⟨rfl, fun tag htag => List.mem_singleton.mp htag ▸ ⟨_, _, _, hd⟩⟩
  | some sum =>
    obtain ⟨body, hbody, hp⟩ := Option.bind_eq_some_iff.mp hparent
    have hproduct : k = .product := by
      cases k with
      | product => rfl
      | sum =>
        obtain ⟨tags, htags⟩ := h.complete_left.sum (h.declares_left hd)
        rw [productBody?_eq_some, sumTags?_eq_some.mp htags] at hbody
        cases hbody
    subst hproduct
    obtain ⟨sumName, hsum⟩ := h.left.2.parent (h.declares_left hd) hbody hp
    have hsum₀ := h.left.1.declares_of h.coherent hsum
    dsimp only
    rw [h.sumTags?_eq hsum₀]
    refine ⟨rfl, fun tag htag => ?_⟩
    cases htags : w.1.sumTags? sum with
    | none =>
      rw [htags] at htag
      cases htag
    | some tags =>
      rw [htags] at htag
      obtain ⟨tagName, body, htagDecl, -⟩ := h.left.2.tags hsum htags htag
      exact ⟨tagName, _, _, h.left.1.declares_of h.coherent htagDecl⟩

/-- A match leaves the same cases open in both stores. -/
theorem missingPatterns_eq (patterns : List Pattern) :
    w.2.missingPatterns patterns = w.1.missingPatterns patterns := by
  have htags : ∀ first, w.2.missingTags first patterns = w.1.missingTags first patterns := by
    intro first
    unfold Store.missingTags
    rw [h.declared?_eq]
    cases hname : w.1.declared? first with
    | none => rfl
    | some d =>
      obtain ⟨k, params, hd⟩ := h.exists_declares hname
      obtain ⟨hsiblings, hdeclared⟩ := h.siblingTags_eq hd
      dsimp only
      rw [hsiblings]
      refine List.filterMap_congr fun tag htag => ?_
      obtain ⟨tagName, k', params', htagDecl⟩ := hdeclared tag htag
      have htext : w.2.tagPatternText tag = w.1.tagPatternText tag := by
        funext name
        unfold Store.tagPatternText
        rw [h.productBody?_eq htagDecl]
      rw [h.nominalName?_eq htagDecl, htext]
  unfold Store.missingPatterns
  simp only [htags]

end Branches

/-! ## Instances -/

namespace Renaming

variable {R R' R₀ : Renaming} {base : Store} {w w' : Stores} {a b v v' : TypeId} {as bs : List TypeId}
  {name : Name} {d : TypeId} {k : DeclKind} {params : List TypeId} {α β : Type}

/-- Types that are alike were so before, if they were there. -/
theorem Alike.of_ge (h : R.Alike w' a b) (hle : w ≤ w') (ha : a < w.1.size) (hb : b < w.2.size) :
    R.Alike w a b where
  left_lt := ha
  right_lt := hb
  qualifiers := by rw [← qualifiers_of_le hle.1 ha, ← qualifiers_of_le hle.2 hb, h.qualifiers]
  tree := by rw [← tree_of_le hle.1 ha, ← tree_of_le hle.2 hb, h.tree]
  occurs := by rw [← tree_of_le hle.1 ha]; exact h.occurs

/-- The error type occurs in both or none of two types that are alike. -/
theorem Alike.whole (h : R.Alike w a b) (ha : w.1.Whole a) : w.2.Whole b :=
  ⟨h.right_lt, by rw [h.tree, faultless_rename]; exact ha.2⟩

/-- Instances of one name at types that are alike. -/
theorem alike_of_isInstance (h : w.1.IsInstance name k as a) (h' : w.2.IsInstance name k bs b)
    (hargs : R.AllAlike w as bs) : R.Alike w a b where
  left_lt := h.lt_size
  right_lt := h'.lt_size
  qualifiers := by
    have hq : (w.1.shape a).isQualified = false := h.shape ▸ DeclKind.isQualified_shape _ _ _
    have hq' : (w.2.shape b).isQualified = false := h'.shape ▸ DeclKind.isQualified_shape _ _ _
    rw [qualifiers_of_not_qualified hq, qualifiers_of_not_qualified hq']
  tree := by
    have hmap : bs.map w.2.tree = (as.map w.1.tree).map (rename R.name) := by
      rw [List.map_map]
      exact (map_eq_of_forall₂ (hargs.imp fun _ _ h => h.tree)).trans rfl
    rw [h.tree_eq, h'.tree_eq, rename_mk (DeclKind.isVar_shape _ _ _), DeclKind.map_shape, hmap]
  occurs x hx := by
    rw [h.tree_eq, occurs_mk, DeclKind.children_shape] at hx
    rcases hx with hx | ⟨t, ht, hx⟩
    · cases k <;> simp [DeclKind.shape, Shape.varIdent?] at hx
    · obtain ⟨c, hc, rfl⟩ := List.mem_map.mp ht
      obtain ⟨c', -, hcc⟩ := exists_mem_of_forall₂ (List.Forall₂.flip hargs) hc
      exact hcc.occurs x hx

/-- Two stores in lockstep, going on from one, are the states of two computations. -/
structure InStepFrom (R : Renaming) (base : Store) (w : Stores) (s t : Store) : Prop
    extends R.InStep w s t where
  branches : Branches base w

/-- Two computations on stores in lockstep that go on from one. -/
abbrev CouplesFrom (R : Renaming) (base : Store) (x : StoreM α) (y : StoreM β) (w : Stores)
    (Q : Stores → α → β → Prop) : Prop :=
  Coupled (R.InStepFrom base) x y w Q

/-- Building types keeps what is declared. -/
theorem Couples.from {x : StoreM α} {y : StoreM β} {Q : Stores → α → β → Prop}
    (h : R.Couples x y w Q) (hx : x.Builds) (hy : y.Builds) : R.CouplesFrom base x y w Q := by
  rintro s t ⟨⟨rfl, rfl, hlock⟩, hbranches⟩
  obtain ⟨w', hle, ⟨hl, hr, hlock'⟩, hQ⟩ := h _ _ ⟨rfl, rfl, hlock⟩
  refine ⟨w', hle, ⟨⟨hl, hr, hlock'⟩, ?_⟩, hQ⟩
  have hnew := hbranches.of_builds hx hy
  rwa [← hl, ← hr] at hnew

/-- A rule for computations that make no fresh variable, from what they do on their own. -/
theorem couplesFrom_of_run {x : StoreM α} {y : StoreM β} {Q : Stores → α → β → Prop}
    (hx : x.MakesNoVar) (hy : y.MakesNoVar)
    (h : Branches base w → DeclM.EndsWell w.1 (x w.1).2 ∧ DeclM.EndsWell w.2 (y w.2).2 ∧
      Q ((x w.1).2, (y w.2).2) (x w.1).1 (y w.2).1) : R.CouplesFrom base x y w Q := by
  rintro s t ⟨⟨rfl, rfl, hlock⟩, hbranches⟩
  obtain ⟨h₁, h₂, hQ⟩ := h hbranches
  exact ⟨_, ⟨h₁.1.le, h₂.1.le⟩, ⟨⟨rfl, rfl, hlock.of_count (hx _) (hy _)⟩, hbranches.trans h₁ h₂⟩, hQ⟩

/-- The instances of a declaration at types that are alike. -/
theorem couplesFrom_instantiate (hd : base.Declares name d k params) (hargs : R'.AllAlike w as bs)
    (hwhole : ∀ a ∈ as, w.1.Whole a) (hlen : params.length = as.length) :
    R.CouplesFrom base (DeclM.instantiate d as).run (DeclM.instantiate d bs).run w fun w' r r' =>
      ∃ v v', r = .ok v ∧ r' = .ok v' ∧ R'.Alike w' v v' ∧ w'.1.Whole v := by
  refine couplesFrom_of_run (DeclM.makesNoVar_instantiate d as) (DeclM.makesNoVar_instantiate d bs)
    fun hbranches => ?_
  have hwhole' : ∀ b ∈ bs, w.2.Whole b := fun b hb => by
    obtain ⟨a, ha, hab⟩ := exists_mem_of_forall₂ hargs hb
    exact hab.whole (hwhole a ha)
  obtain ⟨v, s, hs, hends, hv⟩ := (DeclM.gives_instantiate_of_length hbranches.left.2
    (hbranches.declares_left hd) hwhole hlen).exists_ok fun _ h => h
  obtain ⟨v', t, ht, hends', hv'⟩ := (DeclM.gives_instantiate_of_length hbranches.right.2
    (hbranches.declares_right hd) hwhole' (hlen.trans hargs.length_eq)).exists_ok fun _ h => h
  have hargs' : R'.AllAlike (s, t) as bs := hargs.of_le ⟨hends.1.le, hends'.1.le⟩
  change (DeclM.instantiate d as).run w.1 = _ at hs
  change (DeclM.instantiate d bs).run w.2 = _ at ht
  rw [hs, ht]
  exact ⟨hends, hends', v, v', rfl, rfl, alike_of_isInstance hv hv' hargs',
    hv.whole fun a ha => (hwhole a ha).of_le hends.1.le⟩

/-! ## Resolving written types -/

section Except

variable {ε : Type} {r : Stores → α → β → Prop}

theorem couplesFrom_getExcept {f : Store → ExceptT ε StoreM α} {g : Store → ExceptT ε StoreM β}
    {P : Stores → Except ε α → Except ε β → Prop}
    (h : Branches base w → R.CouplesFrom base (f w.1).run (g w.2).run w P) :
    R.CouplesFrom base (get >>= f).run (get >>= g).run w P := by
  rintro s t ⟨⟨rfl, rfl, hlock⟩, hbranches⟩
  exact h hbranches _ _ ⟨⟨rfl, rfl, hlock⟩, hbranches⟩

/-- What two computations do on their own, beside what they do together. -/
theorem CouplesFrom.and_gives {x : ExceptT ε StoreM α} {y : ExceptT ε StoreM β}
    {E E' : Store → Prop} {P : α → Store → Prop} {P' : β → Store → Prop}
    (h : R.CouplesFrom base x.run y.run w fun w' => RelExcept Eq (r w'))
    (hx : Branches base w → Gives x w.1 E P) (hy : Branches base w → Gives y w.2 E' P') :
    R.CouplesFrom base x.run y.run w fun w' =>
      RelExcept Eq fun a b => r w' a b ∧ P a w'.1 ∧ P' b w'.2 := by
  rintro s t ⟨⟨rfl, rfl, hlock⟩, hbranches⟩
  obtain ⟨w', hle, hin, hr⟩ := h _ _ ⟨⟨rfl, rfl, hlock⟩, hbranches⟩
  refine ⟨w', hle, hin, ?_⟩
  have hleft := hin.left
  have hright := hin.right
  rcases hx hbranches with ⟨a, st, hrun, hP⟩ | ⟨e, st, hrun, -⟩ <;>
    rcases hy hbranches with ⟨b, st', hrun', hP'⟩ | ⟨e', st', hrun', -⟩ <;>
    rw [hrun] at hr hleft ⊢ <;> rw [hrun'] at hr hright ⊢ <;> cases hr
  · exact .ok ⟨‹_›, hleft.symm ▸ hP, hright.symm ▸ hP'⟩
  · exact .error ‹_›

end Except

/-- A renaming of variables goes with other names for the variables that are written in a type. -/
def Follows (R : Renaming) (ρ : Name → Name) (t : TypeExpr) : Prop :=
  ∀ n ∈ t.varNames, .named n ∈ R.dom ∧ R.name (.named n) = .named (ρ n)

variable {ρ : Name → Name} {span : Span} {ts : List TypeExpr}

theorem follows_list
    (h : ∀ n ∈ varNamesOf ts, .named n ∈ R.dom ∧ R.name (.named n) = .named (ρ n)) :
    ∀ t ∈ ts, R.Follows ρ t :=
  fun t ht n hn => h n (mem_varNamesOf.mpr ⟨t, ht, hn⟩)

/-- A written type, and the same with other names for its variables, resolve alike. -/
def ResolvesAlike (R R' : Renaming) (base : Store) (span : Span) (ρ : Name → Name) (t : TypeExpr) :
    Prop :=
  ∀ w : Stores, R.CouplesFrom base (t.resolve span).run ((t.renameVars ρ).resolve span).run w
    fun w' => RelExcept Eq (R'.Alike w')

theorem couplesFrom_resolveAll (h : ∀ t ∈ ts, ResolvesAlike R R' base span ρ t) :
    R.CouplesFrom base (resolveAll span ts).run (resolveAll span (renameTypes ρ ts)).run w
      fun w' => RelExcept Eq (R'.AllAlike w') := by
  induction ts generalizing w with
  | nil => exact coupled_pureExcept .nil
  | cons t ts ih =>
    obtain ⟨ht, hts⟩ := List.forall_mem_cons.mp h
    rw [renameTypes, resolveAll, resolveAll]
    refine (ht w).bindExcept fun w₁ a b hle hab => ?_
    refine (ih hts).bindExcept fun w₂ as bs hle₂ has => ?_
    exact coupled_pureExcept (.cons (hab.of_le hle₂) has)

theorem couplesFrom_instantiateWritten (span : Span) (hd : base.Declares name d k params)
    (hargs : R'.AllAlike w as bs) (hwhole : ∀ a ∈ as, w.1.Whole a) :
    R.CouplesFrom base (instantiateWritten span name d as).run (instantiateWritten span name d bs).run w
      fun w' => RelExcept Eq (R'.Alike w') := by
  unfold instantiateWritten
  refine couplesFrom_getExcept fun hbranches => ?_
  dsimp only
  rw [(hbranches.declares_left hd).nominalArgs, (hbranches.declares_right hd).nominalArgs,
    hargs.length_eq]
  by_cases hlen : params.length = bs.length
  · rw [if_neg (not_not.mpr hlen), if_neg (not_not.mpr hlen)]
    refine (couplesFrom_instantiate hd hargs hwhole
      (hlen.trans hargs.length_eq.symm)).lift.bindExcept fun w' r r' _ h => ?_
    obtain ⟨v, v', rfl, rfl, hv, -⟩ := h
    exact coupled_pureExcept hv
  · rw [if_pos hlen, if_pos hlen]
    exact coupled_throw _

theorem resolvesAlike_named (h : ∀ t ∈ ts, ResolvesAlike R R' base span ρ t) :
    ResolvesAlike R R' base span ρ (.named name ts) := by
  intro w
  have hempty : (renameTypes ρ ts).isEmpty = ts.isEmpty := by
    rw [renameTypes_eq_map, List.isEmpty_map]
  rw [TypeExpr.renameVars, TypeExpr.resolve, TypeExpr.resolve, hempty]
  split
  · next p _ _ => exact coupled_pureExcept (R'.alike_prim w p)
  · refine couplesFrom_getExcept fun hbranches => ?_
    rw [hbranches.declared?_eq]
    cases hdecl : w.1.declared? name with
    | none => exact coupled_throw _
    | some d =>
      obtain ⟨k, params, hd⟩ := hbranches.exists_declares hdecl
      -- the arguments have the error type nowhere, so that there is an instance at them
      refine ((couplesFrom_resolveAll h).and_gives
        (fun hbranches => gives_resolveAll hbranches.left.2 rfl fun t _ => resolvesWell _ span t)
        (fun hbranches => gives_resolveAll hbranches.right.2 rfl
          fun t _ => resolvesWell _ span t)).bindExcept fun w' as bs _ h => ?_
      obtain ⟨hargs, ⟨-, hresolves⟩, -⟩ := h
      refine couplesFrom_instantiateWritten span hd hargs fun a ha => ?_
      obtain ⟨t, -, ht⟩ := exists_mem_of_forall₂ hresolves ha
      exact ht.whole

/-- Written types resolve alike when the variables in them have the names that a renaming gives. -/
theorem resolvesAlike (R : Renaming) (base : Store) (span : Span) (t : TypeExpr)
    (h : R'.Follows ρ t) : ResolvesAlike R R' base span ρ t := by
  induction t using TypeExpr.induction with
  | named name args ih => exact resolvesAlike_named fun t ht => ih t ht (follows_list h t ht)
  | var name =>
    intro w
    obtain ⟨hmem, hname⟩ := h name (List.mem_singleton_self name)
    exact ((couples_namedVar hmem hname).from (builds_intern _) (builds_intern _)).lift
  | pointer target ih =>
    intro w
    rw [TypeExpr.renameVars, TypeExpr.resolve, TypeExpr.resolve]
    refine (ih h w).bindExcept fun w' a b _ hab => ?_
    exact ((couples_pointer hab).from (builds_intern _) (builds_intern _)).lift
  | array elem length ih =>
    intro w
    rw [TypeExpr.renameVars, TypeExpr.resolve, TypeExpr.resolve]
    refine (ih h w).bindExcept fun w' a b _ hab => ?_
    exact ((couples_array hab length).from (builds_intern _) (builds_intern _)).lift
  | tuple items ih =>
    intro w
    rw [TypeExpr.renameVars, TypeExpr.resolve, TypeExpr.resolve]
    refine (couplesFrom_resolveAll fun t ht => ih t ht (follows_list h t ht)).bindExcept
      fun w' as bs _ hab => ?_
    exact ((couples_tuple hab).from (builds_tuple as) (builds_tuple bs)).lift
  | function params ret ihs ih =>
    intro w
    rw [TypeExpr.renameVars, TypeExpr.resolve, TypeExpr.resolve]
    have hparams := follows_list fun n hn => h n (List.mem_append_left _ hn)
    refine (couplesFrom_resolveAll fun t ht => ihs t ht (hparams t ht)).bindExcept
      fun w₁ as bs _ has => ?_
    refine (ih (fun n hn => h n (List.mem_append_right _ hn)) w₁).bindExcept fun w₂ a b hle hab => ?_
    have hsig : R'.AlikeSig w₂ { ret := a, params := as } { ret := b, params := bs } :=
      ⟨hab, has.of_le hle, .nil, rfl, rfl⟩
    exact ((couples_function hsig).from (builds_intern _) (builds_intern _)).lift
  | qualified q base ih =>
    intro w
    rw [TypeExpr.renameVars, TypeExpr.resolve, TypeExpr.resolve]
    refine (ih h w).bindExcept fun w' a b _ hab => ?_
    exact ((couples_qualify q hab).from (builds_qualify q a) (builds_qualify q b)).lift

end Renaming

end ConstraintTyping
