import ConstraintTyping.Proofs.Types.Accounted
import ConstraintTyping.Proofs.Types.Materialize

/-!
# Materialized types

A type without variables and without the error type has its products and sums materialized: each is
declared or becomes an instance of its declaration.  In a store in which everything is accounted for
this cannot be refused, since the declaration is found and takes as many arguments as there are.
-/

namespace ConstraintTyping

open Store StoreM

variable {st st' : Store} {name : Name} {d ty v : TypeId} {k : DeclKind} {params args : List TypeId}

namespace StoreM

variable {ε α : Type} {act : ExceptT ε StoreM α} {E E' : Store → Prop} {Q Q' : α → Store → Prop}
  {P P' : Store → Prop}

theorem Gives.and (h : Gives act st E Q) (h' : Gives act st E' Q') :
    Gives act st (fun st' => E st' ∧ E' st') fun a st' => Q a st' ∧ Q' a st' := by
  rcases h with ⟨a, st₁, hrun, hQ⟩ | ⟨e, st₁, hrun, hE⟩ <;>
    rcases h' with ⟨a', st₂, hrun', hQ'⟩ | ⟨e', st₂, hrun', hE'⟩ <;>
      obtain ⟨heq, rfl⟩ := Prod.mk.inj (hrun.symm.trans hrun') <;> cases heq
  · exact .inl ⟨a, st₁, hrun, hQ, hQ'⟩
  · exact .inr ⟨e, st₁, hrun, hE, hE'⟩

end StoreM

theorem Preserves.and {σ α : Type} {P P' : σ → Prop} {act : StateM σ α} (h : Preserves P act)
    (h' : Preserves P' act) : Preserves (fun s => P s ∧ P' s) act :=
  fun s hs => ⟨h s hs.1, h' s hs.2⟩

namespace Store

/-! ## Declarations and instances last -/

/-- What is declared under a name stays declared. -/
theorem lasting_declared (name : Name) (d : TypeId) :
    Lasting fun st => st.declared? name = some d where
  build h _ _ := h
  again h _ _ := h
  qualify {st q base} h := by rwa [Store.declared?, qualify_nominals]
  declare {st k name' params} h := by
    refine (DeclM.gives_declare_of (E := fun st => st.declared? name = some d)
      (Q := fun _ st => st.declared? name = some d) k name' params (fun _ => h) ?_).end fun _ _ h => h
    intro st₁ d' vars hle hnom hnew _ _ _
    rw [declared?_declare, if_neg, Store.declared?, hnom]
    · exact h
    · rintro rfl
      rw [hnew] at h
      cases h
  declareOther h _ _ := h
  define h _ _ := h
  bindParent {st tag sum} h := ((sameButBodies_bindParent st tag sum).declared? name).trans h
  enter h _ _ _ _ := ((sameButBodies_ensureBody _ _ _).declared? name).trans h
  enterOther h _ _ _ _ := h

/-- An instance stays the instance at its arguments. -/
theorem lasting_variant (key : TypeId × List TypeId) (v : TypeId) :
    Lasting fun st => st.nominals.variants[key]? = some v where
  build h _ _ := h
  again h _ _ := h
  qualify {st q base} h := by rwa [qualify_nominals]
  declare {st k name params} h := by
    refine (DeclM.gives_declare_of (E := fun st => st.nominals.variants[key]? = some v)
      (Q := fun _ st => st.nominals.variants[key]? = some v) k name params (fun _ => h) ?_).end
        fun _ _ h => h
    intro st₁ d' vars _ hnom _ _ _ _
    show st₁.nominals.variants[key]? = some v
    rw [hnom]
    exact h
  declareOther h _ _ := h
  define h _ _ := h
  bindParent {st tag sum} h := by rwa [(sameButBodies_bindParent st tag sum).variants]
  enter {st ty d args b k} h _ _ hfree _ := by
    rw [DeclM.variants_enterWith, Std.HashMap.getElem?_insert, if_neg, h]
    simp only [beq_iff_eq]
    rintro rfl
    rw [hfree] at h
    cases h
  enterOther {st ty d args} h _ _ hfree _ := by
    show (st.nominals.variants.insert (d, args) _)[key]? = some v
    rw [Std.HashMap.getElem?_insert, if_neg, h]
    simp only [beq_iff_eq]
    rintro rfl
    rw [hfree] at h
    cases h

theorem Accounted.declOf?_self (h : st.Accounted) (hname : st.declared? name = some d) :
    st.declOf? d = some d := by
  obtain ⟨k, params, hd⟩ := h.declares hname
  obtain ⟨d', params', hfound, hd', -⟩ := h.exists_declOf? hd.shape
  rw [hfound, (hd.unique hd').1]

end Store

/-! ## Instances are owned -/

namespace DeclM

variable {inst : TypeId → List TypeId → DeclM TypeId}

/-- The instance of a declared type is the declaration itself, or it is entered. -/
theorem gives_variantWith_owned (parts : List TypeId)
    (hinst : ∀ {P : Store → Prop}, Lasting P → ∀ ty args, Preserves P (inst ty args).run)
    (hown : st.declOf? d = some d) (hd : st.Declares name d k params) :
    Gives (variantWith inst d parts args) st (fun _ => True) fun v st' => st'.Owned v := by
  have hentered : ∀ {s : Shape TypeId} {b : Body},
      (enterWith d args s b st).2.nominals.variants[(d, args)]? =
        some (enterWith d args s b st).1 := by
    intro s b
    rw [variants_enterWith, Std.HashMap.getElem?_insert_self]
  cases k with
  | product =>
    refine gives_variantWith_product hown hd (fun _ => trivial) (fun _ => .inl ⟨name, hd.declared⟩)
      (fun w hw => .inr ⟨_, hw⟩) fun _ _ _ => ⟨fun _ => .inr ⟨_, hentered⟩, fun sum _ => ?_⟩
    refine (gives_of_preserves (hinst (lasting_variant _ _) sum args) hentered).mono
      (fun _ _ => trivial) fun s st' h => .inr ⟨(d, args), ?_⟩
    exact (lasting_variant _ _).bindParent h
  | sum =>
    refine gives_variantWith_sum hown hd (fun _ => trivial) (fun _ => .inl ⟨name, hd.declared⟩)
      (fun w hw => .inr ⟨_, hw⟩) fun _ _ _ => .inr ⟨(d, args), ?_⟩
    show (bindParents _ _ parts).nominals.variants[(d, args)]? = _
    rw [(sameButBodies_bindParents _ _ _).variants]
    exact hentered

theorem gives_instantiateWithin_owned (depth : Nat) (h : st.Accounted)
    (hd : st.Declares name d k params) :
    Gives (instantiateWithin depth d args) st (fun _ => True) fun v st' => st'.Owned v := by
  cases depth with
  | zero => exact gives_throw trivial
  | succ depth =>
    -- making the parts leaves the declaration what it is
    have hrest : ∀ {α : Type} {act : DeclM α} {f : α → List TypeId},
        (∀ {P : Store → Prop}, Lasting P → Preserves P act.run) →
        Gives act st (fun _ => True) fun a st' =>
          Gives (variantWith (instantiateWithin depth) d (f a) args) st' (fun _ => True)
            fun v st'' => st''.Owned v := by
      intro α act f hact
      refine (gives_of_preserves ((hact lasting_accounted).and (hact (lasting_declared name d)))
        ⟨h, hd.declared⟩).mono (fun _ _ => trivial) fun a st' ⟨h', hname⟩ => ?_
      obtain ⟨k', params', hd'⟩ := h'.declares hname
      exact gives_variantWith_owned (f a)
        (fun hP ty args => preserves_instantiateWithin (hP.admits args) depth ty)
        (h'.declOf?_self hname) hd'
    refine gives_instantiateWithin_succ (h.declOf?_self hd.declared) hd (fun _ => trivial)
      (fun _ => .inl ⟨name, hd.declared⟩) (fun _ w hw => .inr ⟨_, hw⟩)
      (fun _ _ _ _ => hrest fun hP => ?_) fun _ _ _ _ => hrest fun hP => ?_
    · exact preserves_run_mapM (fun _ => preserves_run_lift (preserves_substituteAll hP _ _)) _
    · exact preserves_run_mapM (fun tag => preserves_instantiateWithin (hP.admits args) depth tag) _

/-- A product or sum without the error type is always materialized. -/
theorem gives_materialize_owned (h : st.Accounted) (hco : st.Coherent) (hty : st.Whole ty)
    (hshape : st.shape ty = k.shape name args) :
    Gives (materialize ty) st (fun _ => False) fun _ st' => EndsWell st st' ∧ st'.Owned ty := by
  refine gives_get_bind ?_
  split
  · next hbody =>
    rw [Std.HashMap.contains_eq_isSome_getElem?] at hbody
    exact gives_pure ⟨⟨.refl st, hco⟩, h.bodies hbody⟩
  have hargs : st.nominalArgs ty = args := by
    rw [Store.nominalArgs, hshape, DeclKind.nominalArgs_shape]
  have hwhole : ∀ a ∈ args, st.Whole a := fun a ha => hty.child (by
    show a ∈ (st.shape ty).children
    rwa [hshape, DeclKind.children_shape])
  obtain ⟨d, params, hfound, hd, hlen⟩ := h.exists_declOf? hshape
  have hown := h.declOf?_self hd.declared
  have howned : Gives (instantiateWithin (instantiationDepth st) d args) st (fun _ => True)
      fun v st' => st'.Owned v := gives_instantiateWithin_owned (instantiationDepth st) h hd
  have hmade := (instancesWithin (instantiationDepth st) args (E := fun _ => False) hco hd
    hwhole fun hshort => absurd (suffices_instantiationDepth hco hlen) hshort).and howned
  rw [hargs]
  refine gives_get_bind ?_
  unfold Gives at hmade ⊢
  rw [instantiationDepth] at hmade ⊢
  rw [instantiateWithin_declOf? _ hown hfound]
  refine Gives.mono hmade (fun _ h => h.1) fun v st' hmade' => ?_
  obtain ⟨⟨hends, hinst⟩, howned⟩ := hmade'
  refine ⟨hends, ?_⟩
  -- the instance has the shape of the type, so it is the type
  have hlt := lt_size_of_le hends.1.le hty.1
  have hshape' := (shape_of_le hends.1.le hty.1).trans hshape
  have hbare : st'.shape v = k.shape name args := by
    rw [hinst.shape]
    have hkey := key_shape hlt
    rw [hshape', TypeTable.key, if_neg (by simp), DeclKind.map_shape] at hkey
    exact hkey
  rwa [eq_of_shape_eq hinst.lt_size hlt (hbare.trans hshape'.symm)] at howned

end DeclM

/-! ## All products and sums in a type -/

namespace DeclKind

theorem exists_shape_of_kind {α : Type} {s : Shape α} {k : DeclKind} (h : s.kind = k.kind) :
    ∃ name args, s = k.shape name args := by
  cases k <;> cases s <;> first | exact ⟨_, _, rfl⟩ | cases h

end DeclKind

namespace Store

theorem Owned.of_advances (h : st.Owned ty) (hadv : st.Advances st') : st'.Owned ty :=
  h.imp (fun ⟨name, hname⟩ => ⟨name, (hadv.declared? name).trans hname⟩)
    fun ⟨key, hkey⟩ => ⟨key, hadv.variants hkey⟩

/-- Every product and sum that occurs in a type is declared, or it is an instance. -/
def Materialized (st : Store) (ty : TypeId) : Prop :=
  ∀ part, Relation.ReflTransGen (fun a b => b ∈ st.children a) ty part →
    ∀ k : DeclKind, st.kind part = k.kind → st.Owned part

theorem Materialized.of_children (hself : ∀ k : DeclKind, st.kind ty = k.kind → st.Owned ty)
    (h : ∀ c ∈ st.children ty, st.Materialized c) : st.Materialized ty := by
  intro part hpart
  rcases hpart.cases_head with rfl | ⟨c, hc, hpart⟩
  · exact hself
  · exact h c hc part hpart

theorem Materialized.of_advances (h : st.Materialized ty) (hadv : st.Advances st')
    (hty : ty < st.size) : st'.Materialized ty := by
  intro part hpart
  have hback : Relation.ReflTransGen (fun a b => b ∈ st.children a) ty part ∧ part < st.size := by
    induction hpart with
    | refl => exact ⟨.refl, hty⟩
    | @tail a b _ hb ih =>
      rw [children_of_le hadv.le ih.2] at hb
      exact ⟨ih.1.tail hb, lt_size_of_mem_children ih.2 hb⟩
  intro k hk
  rw [kind_of_le hadv.le hback.2] at hk
  exact (h part hback.1 k hk).of_advances hadv

end Store

namespace StoreM

/-- Types are materialized one after the other, and those that were stay so. -/
theorem materialized_forM {α : Type} (f : α → TypeId) {xs : List α} (h : st.Accounted)
    (hco : st.Coherent) (ht : st.Traced) (hlt : ∀ x ∈ xs, f x < st.size)
    (hone : ∀ x ∈ xs, ∀ {st₁ : Store}, st₁.Accounted → st₁.Coherent → st₁.Traced →
      f x < st₁.size → st₁.isGeneric (f x) = false → st₁.hasError (f x) = false →
        (materializeAll (f x) st₁).2.Materialized (f x)) :
    let st' := (xs.forM (fun x => materializeAll (f x)) st).2
    DeclM.EndsWell st st' ∧ ∀ x ∈ xs, st.isGeneric (f x) = false → st.hasError (f x) = false →
      st'.Materialized (f x) := by
  induction xs generalizing st with
  | nil => exact ⟨⟨.refl st, hco⟩, by simp⟩
  | cons x xs ih =>
    obtain ⟨hx, hxs⟩ := List.forall_mem_cons.mp hlt
    obtain ⟨honex, honexs⟩ := List.forall_mem_cons.mp hone
    have hfirst := endsWell_materializeAll hco ht hx
    have hle := hfirst.1.le
    obtain ⟨hrest, hall⟩ := @ih (materializeAll (f x) st).2
      (preserves_materializeAll lasting_accounted (f x) st h) hfirst.2 (hfirst.1.traced ht)
      (fun y hy => lt_size_of_le hle (hxs y hy)) honexs
    refine ⟨⟨hfirst.1.trans hrest.1, hrest.2⟩, List.forall_mem_cons.mpr ⟨fun hg he => ?_,
      fun y hy hg he => ?_⟩⟩
    · exact (honex h hco ht hx hg he).of_advances hrest.1 (lt_size_of_le hle hx)
    · exact hall y hy ((isGeneric_of_le hle (hxs y hy)).trans hg)
        ((hasError_of_le hle (hxs y hy)).trans he)

/-- A type without variables and without the error type is materialized in the end. -/
theorem materialized_materializeAll (h : st.Accounted) (hco : st.Coherent) (ht : st.Traced)
    (hty : ty < st.size) (hclosed : st.isGeneric ty = false) (herror : st.hasError ty = false) :
    (materializeAll ty st).2.Materialized ty := by
  induction ty using Nat.strongRecOn generalizing st with
  | ind ty ih =>
    have hparts : ∀ c ∈ st.children ty, c < st.size ∧ st.isGeneric c = false ∧
        st.hasError c = false := by
      intro c hc
      rw [isGeneric_eq hty, Bool.or_eq_false_iff, List.any_eq_false] at hclosed
      rw [hasError_eq hty, Bool.or_eq_false_iff, List.any_eq_false] at herror
      exact ⟨lt_size_of_mem_children hty hc, by simpa using hclosed.2 c hc,
        by simpa using herror.2 c hc⟩
    -- once the type itself is, its parts are materialized
    have hfinish : ∀ st₁, DeclM.EndsWell st st₁ → st₁.Accounted →
        (∀ k : DeclKind, st.kind ty = k.kind → st₁.Owned ty) →
        ((st.children ty).attach.forM (fun c : { c // c ∈ st.children ty } =>
          materializeAll c.1) st₁).2.Materialized ty := by
      intro st₁ ⟨hadv, hco₁⟩ h₁ howned
      obtain ⟨hrest, hall⟩ := @materialized_forM _ _ Subtype.val (st.children ty).attach h₁ hco₁
        (hadv.traced ht) (fun c _ => lt_size_of_le hadv.le (hparts c.1 c.2).1)
        fun c _ => ih c.1 (lt_of_mem_children c.2)
      have hle := hadv.le.trans hrest.1.le
      refine .of_children (fun k hk => ?_) fun c hc => ?_
      · rw [kind_of_le hle hty] at hk
        exact (howned k hk).of_advances hrest.1
      · rw [children_of_le hle hty] at hc
        obtain ⟨hlt, hg, he⟩ := hparts c hc
        exact hall ⟨c, hc⟩ (List.mem_attach _ _) ((isGeneric_of_le hadv.le hlt).trans hg)
          ((hasError_of_le hadv.le hlt).trans he)
    rw [materializeAll, StateM.bind_apply, StateM.get_apply, if_neg (by simp [hclosed, herror])]
    split
    · next hkind =>
      have hwhole : st.Whole ty := ⟨hty, (hasError_eq_false_iff hty).mp herror⟩
      obtain ⟨k, hk⟩ : ∃ k : DeclKind, st.kind ty = k.kind := by
        rcases (by simpa using hkind : st.kind ty = .product ∨ st.kind ty = .sum) with hk | hk
        · exact ⟨.product, hk⟩
        · exact ⟨.sum, hk⟩
      obtain ⟨name, args, hshape⟩ := DeclKind.exists_shape_of_kind hk
      obtain ⟨hends, howned⟩ := ((DeclM.gives_materialize_owned h hco hwhole hshape).mono
        (fun _ h => h.elim) fun _ _ h => h).end fun _ _ h => h
      exact hfinish _ hends (DeclM.preserves_materialize lasting_accounted ty st h)
        fun _ _ => howned
    · next hkind =>
      refine hfinish st ⟨.refl st, hco⟩ h fun k hk => absurd ?_ hkind
      cases k <;> simp [hk, DeclKind.kind]

end StoreM

end ConstraintTyping
