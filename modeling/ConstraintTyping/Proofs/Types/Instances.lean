import ConstraintTyping.Proofs.Types.Declared
import Mathlib.Data.Finset.Card

/-!
# Making instances

An instance is entered, given a body, and tied to the instance of its sum.  Each of these updates is
an advance that keeps a store coherent, and so is the recursion that they are part of, however it
ends.
-/

namespace ConstraintTyping

/-! ## Computations that can be refused -/

section Refusable

variable {ε α β : Type} {st : Store}

/-- A computation that can be refused: it gives a result with `Q`, or it is refused in a store with
`E`. -/
def StoreM.Gives (act : ExceptT ε StoreM α) (st : Store) (E : Store → Prop)
    (Q : α → Store → Prop) : Prop :=
  (∃ a st', act.run st = (.ok a, st') ∧ Q a st') ∨ (∃ e st', act.run st = (.error e, st') ∧ E st')

namespace StoreM

variable {act : ExceptT ε StoreM α} {E : Store → Prop} {Q R : α → Store → Prop}

theorem gives_pure {a : α} (h : Q a st) : Gives (pure a : ExceptT ε StoreM α) st E Q :=
  Or.inl ⟨a, st, rfl, h⟩

theorem gives_throw {e : ε} (h : E st) : Gives (throw e : ExceptT ε StoreM α) st E Q :=
  Or.inr ⟨e, st, rfl, h⟩

theorem gives_lift {act : StoreM α} (h : Q (act st).1 (act st).2) :
    Gives (liftM act : ExceptT ε StoreM α) st E Q :=
  Or.inl ⟨_, _, rfl, h⟩

theorem Gives.bind {f : α → ExceptT ε StoreM β} {S : β → Store → Prop} (h : Gives act st E Q)
    (hf : ∀ a st', Q a st' → Gives (f a) st' E S) : Gives (act >>= f) st E S := by
  have hrun : (act >>= f).run st = _ := ExceptT.run_bind act f ▸ StateM.bind_apply _ _ st
  rcases h with ⟨a, st', hact, hQ⟩ | ⟨e, st', hact, hE⟩
  · rw [hact] at hrun
    rcases hf a st' hQ with ⟨b, st'', hb, hS⟩ | ⟨e, st'', he, hE⟩
    · exact Or.inl ⟨b, st'', hrun.trans hb, hS⟩
    · exact Or.inr ⟨e, st'', hrun.trans he, hE⟩
  · rw [hact] at hrun
    exact Or.inr ⟨e, st', hrun, hE⟩

theorem gives_get_bind {f : Store → ExceptT ε StoreM β} {S : β → Store → Prop}
    (h : Gives (f st) st E S) : Gives (get >>= f) st E S :=
  Gives.bind (Q := fun s st' => s = st ∧ st' = st) (Or.inl ⟨st, st, rfl, rfl, rfl⟩) fun _ _ hs => by
    rw [hs.1, hs.2]
    exact h

theorem gives_modify_bind {g : Store → Store} {f : PUnit → ExceptT ε StoreM β}
    {S : β → Store → Prop} (h : Gives (f ⟨⟩) (g st) E S) : Gives (modify g >>= f) st E S :=
  Gives.bind (Q := fun _ st' => st' = g st) (Or.inl ⟨⟨⟩, g st, rfl, rfl⟩) fun _ _ hs => by
    rw [hs]
    exact h

theorem Gives.mono {E' : Store → Prop} (h : Gives act st E Q) (hE : ∀ st', E st' → E' st')
    (hQ : ∀ a st', Q a st' → R a st') : Gives act st E' R := by
  rcases h with ⟨a, st', hact, h⟩ | ⟨e, st', hact, h⟩
  · exact Or.inl ⟨a, st', hact, hQ a st' h⟩
  · exact Or.inr ⟨e, st', hact, hE st' h⟩

/-- What is not refused gives a result. -/
theorem Gives.exists_ok (h : Gives act st E Q) (hE : ∀ st', ¬ E st') :
    ∃ a st', act.run st = (.ok a, st') ∧ Q a st' :=
  h.resolve_right fun ⟨_, st', _, hst'⟩ => hE st' hst'

/-- What holds however a computation ends holds at its end. -/
theorem Gives.end {P : Store → Prop} (h : Gives act st P Q) (hQ : ∀ a st', Q a st' → P st') :
    P (act.run st).2 := by
  rcases h with ⟨a, st', hact, h⟩ | ⟨e, st', hact, h⟩
  · rw [hact]
    exact hQ a st' h
  · rw [hact]
    exact h

/-- A loop that can be refused.  Every round goes on along `R` and keeps `I`, and what a round gives
stays true. -/
theorem gives_mapM_along {R : Store → Store → Prop} (hrefl : ∀ st, R st st)
    (htrans : ∀ {st₁ st₂ st₃}, R st₁ st₂ → R st₂ st₃ → R st₁ st₃) (xs : List α) (st : Store)
    {f : α → ExceptT ε StoreM β} {I : Store → Prop} {P : α → β → Store → Prop} (hI : I st)
    (stable : ∀ x y st₁ st₂, R st₁ st₂ → P x y st₁ → P x y st₂)
    (hf : ∀ x ∈ xs, ∀ st', R st st' → I st' →
      Gives (f x) st' E fun y st'' => R st' st'' ∧ I st'' ∧ P x y st'') :
    Gives (xs.mapM f) st E fun ys st' =>
      R st st' ∧ I st' ∧ List.Forall₂ (fun x y => P x y st') xs ys := by
  induction xs generalizing st with
  | nil => exact gives_pure ⟨hrefl st, hI, .nil⟩
  | cons x xs ih =>
    rw [List.mapM_cons]
    refine (hf x List.mem_cons_self st (hrefl st) hI).bind fun y st₁ ⟨h₁, hI₁, hy⟩ => ?_
    have hrest := ih st₁ hI₁ fun z hz st' (h : R st₁ st') =>
      hf z (List.mem_cons_of_mem x hz) st' (htrans h₁ h)
    refine hrest.bind fun ys st₂ ⟨h₂, hI₂, hys⟩ => ?_
    exact gives_pure ⟨htrans h₁ h₂, hI₂, .cons (stable x y st₁ st₂ h₂ hy) hys⟩

theorem gives_mapM (xs : List α) (st : Store) {f : α → ExceptT ε StoreM β} {I : Store → Prop}
    {P : α → β → Store → Prop} (hI : I st)
    (stable : ∀ x y st₁ st₂, st₁.Advances st₂ → P x y st₁ → P x y st₂)
    (hf : ∀ x ∈ xs, ∀ st', st.Advances st' → I st' →
      Gives (f x) st' E fun y st'' => st'.Advances st'' ∧ I st'' ∧ P x y st'') :
    Gives (xs.mapM f) st E fun ys st' =>
      st.Advances st' ∧ I st' ∧ List.Forall₂ (fun x y => P x y st') xs ys :=
  gives_mapM_along .refl .trans xs st hI stable hf

end StoreM

end Refusable

namespace Store

variable {st : Store} {name : Name} {d v ty : TypeId} {k : DeclKind} {params args : List TypeId}

/-! ## Entering an instance -/

theorem advances_enterVariant (hd : st.declared? name = some d) (hv : v < st.size)
    (hnew : st.nominals.variants[(d, args)]? = none) :
    st.Advances (DeclM.enterVariant d args v st) where
  le := le_refl st
  declared := rfl
  bodies _ hb := hb
  late _ hnone hsome := by
    have hsome : st.nominals.bodies[_]? = some _ := hsome
    rw [hnone] at hsome
    cases hsome
  variants {key w} hw := by
    show (st.nominals.variants.insert (d, args) v)[key]? = some w
    rw [Std.HashMap.getElem?_insert]
    split
    · next h =>
      obtain rfl := eq_of_beq h
      rw [hnew] at hw
      cases hw
    · exact hw
  declOf {ty d'} hd' := by
    change (st.nominals.declOf.insert v d)[ty]? = some d' at hd'
    rw [Std.HashMap.getElem?_insert] at hd'
    split at hd'
    · next h =>
      obtain rfl := eq_of_beq h
      obtain rfl := Option.some.inj hd'
      exact .inr ⟨hv, .inr ⟨name, hd⟩⟩
    · exact .inl hd'
  faultless hst := hst.of_le (le_refl st) rfl

section Enter

variable (hd : st.Declares name d k params)
include hd

theorem Coherent.enterVariant (hco : st.Coherent) (hv : v < st.size)
    (hargs : ∀ a ∈ args, a < st.size) (hshape : st.shape v = k.shape name (args.map st.bare)) :
    (DeclM.enterVariant d args v st).Coherent where
  declares {name' d'} hd' := by
    obtain ⟨hself, k', params', hdecl, hvars⟩ := hco.declares hd'
    refine ⟨?_, k', params', ⟨hdecl.declared, hdecl.shape⟩, hvars⟩
    show (st.nominals.declOf.insert v d)[d']? = some d'
    rw [Std.HashMap.getElem?_insert]
    split
    · next h =>
      -- the instance can be a declaration itself, but only the one it is an instance of
      obtain rfl := eq_of_beq h
      obtain ⟨-, hname, -⟩ := DeclKind.shape_inj (hshape.symm.trans hdecl.shape)
      subst hname
      rw [(hd.unique hdecl).1]
    · exact hself
  variants {d' args' v'} hv' := by
    change (st.nominals.variants.insert (d, args) v)[(d', args')]? = some v' at hv'
    rw [Std.HashMap.getElem?_insert] at hv'
    split at hv'
    · next h =>
      obtain ⟨rfl, rfl⟩ := Prod.mk.inj (eq_of_beq h)
      obtain rfl := Option.some.inj hv'
      refine ⟨hv, hargs, fun name' k' params' hd' => ?_⟩
      obtain ⟨rfl, rfl, -⟩ := hd.unique_of_id (⟨hd'.declared, hd'.shape⟩ : st.Declares ..)
      exact hshape
    · obtain ⟨hlt, hargs', hshape'⟩ := hco.variants hv'
      exact ⟨hlt, hargs', fun name' k' params' hd' =>
        hshape' name' k' params' ⟨hd'.declared, hd'.shape⟩⟩
  bodies hb := hco.bodies hb
  parent hd' hb hp := by
    obtain ⟨sumName, hsum⟩ := hco.parent ⟨hd'.declared, hd'.shape⟩ hb hp
    exact ⟨sumName, hsum.declared, hsum.shape⟩
  tags hd' ht hmem := by
    obtain ⟨tagName, body, htag, hb, hp⟩ := hco.tags ⟨hd'.declared, hd'.shape⟩ ht hmem
    exact ⟨tagName, body, ⟨htag.declared, htag.shape⟩, hb, hp⟩

end Enter

/-! ## Giving an instance a body -/

/-- Two stores that differ in bodies only. -/
structure SameButBodies (st st' : Store) : Prop where
  table : st'.table = st.table
  declared : st'.nominals.declared = st.nominals.declared
  declOf : st'.nominals.declOf = st.nominals.declOf
  variants : st'.nominals.variants = st.nominals.variants

/-- A change of bodies that declarations do not notice, except that one without a body can get an
empty one. -/
structure KeepsDeclared (st st' : Store) : Prop extends SameButBodies st st' where
  bodies : ∀ {name : Name} {d : TypeId}, st.declared? name = some d →
    st'.nominals.bodies[d]? = st.nominals.bodies[d]? ∨
      st.nominals.bodies[d]? = none ∧ ∃ b, st'.nominals.bodies[d]? = some b ∧
        ∀ {k params}, st.Declares name d k params → b = k.emptyBody
  faultless : st.Faultless → st'.Faultless

theorem KeepsDeclared.advances {st' : Store} (h : KeepsDeclared st st') : st.Advances st' where
  le := by intro i n hn; rw [h.table]; exact hn
  declared := h.declared
  bodies hd hb := by
    rcases h.bodies hd with heq | ⟨hnone, -⟩
    · exact heq.trans hb
    · rw [hnone] at hb
      cases hb
  late hd hnone hsome := by
    rcases h.bodies hd.declared with heq | ⟨-, b, hb, hempty⟩
    · rw [heq, hnone] at hsome
      cases hsome
    · rw [hb] at hsome
      exact Option.some.inj hsome ▸ hempty hd
  variants hv := by rw [h.variants]; exact hv
  declOf hd := by rw [h.declOf] at hd; exact .inl hd
  faultless := h.faultless

theorem SameButBodies.size {st' : Store} (h : SameButBodies st st') : st'.size = st.size := by
  rw [Store.size, Store.size, h.table]

theorem SameButBodies.le {st' : Store} (h : SameButBodies st st') : st ≤ st' := by
  intro i n hn
  rw [h.table]
  exact hn

theorem SameButBodies.shape {st' : Store} (h : SameButBodies st st') (ty : TypeId) :
    st'.shape ty = st.shape ty := by
  rw [Store.shape, Store.shape, h.table]

theorem SameButBodies.declared? {st' : Store} (h : SameButBodies st st') (name : Name) :
    st'.declared? name = st.declared? name := by
  rw [Store.declared?, Store.declared?, h.declared]

theorem SameButBodies.declares {st' : Store} (h : SameButBodies st st') :
    st'.Declares name d k params ↔ st.Declares name d k params :=
  ⟨fun hd => ⟨h.declared? name ▸ hd.declared, h.shape d ▸ hd.shape⟩,
    fun hd => ⟨(h.declared? name).trans hd.declared, (h.shape d).trans hd.shape⟩⟩

theorem SameButBodies.traced {st' : Store} (h : SameButBodies st st') (ht : st.Traced) :
    st'.Traced := by
  intro ty d hd
  rw [h.declOf] at hd
  rw [h.size, Store.kind, Store.shape, h.table]
  obtain ⟨hlt, hkind⟩ := ht hd
  refine ⟨hlt, hkind.imp_right ?_⟩
  rintro ⟨name, hname⟩
  exact ⟨name, (h.declared? name).trans hname⟩

/-- A change of bodies keeps a store coherent if the new ones tie tags and sums together. -/
theorem SameButBodies.coherent {st' : Store} (h : SameButBodies st st') (hco : st.Coherent)
    (hvalid : ∀ ty b, st'.nominals.bodies[ty]? = some b →
      ty < st.size ∧ ∀ c ∈ b.parts, c < st.size)
    (hparent : ∀ {name d params body sum}, st.Declares name d .product params →
      st'.productBody? d = some body → body.parent = some sum →
        ∃ sumName, st.Declares sumName sum .sum params)
    (htags : ∀ {name sum params tags tag}, st.Declares name sum .sum params →
      st'.sumTags? sum = some tags → tag ∈ tags → ∃ tagName body,
        st.Declares tagName tag .product params ∧ st'.productBody? tag = some body ∧
          body.parent = some sum) : st'.Coherent := by
  have hshape := h.shape
  have hbare : st'.bare = st.bare := funext fun ty => by rw [Store.bare, Store.bare, h.table]
  constructor
  · intro name d hd
    rw [h.declared?] at hd
    obtain ⟨hself, k, params, hdecl, hvars⟩ := hco.declares hd
    refine ⟨by rw [h.declOf]; exact hself, k, params, h.declares.mpr hdecl, fun p hp => ?_⟩
    rw [isVar, hshape]
    exact hvars p hp
  · intro d args v hv
    rw [h.variants] at hv
    obtain ⟨hlt, hargs, hv⟩ := hco.variants hv
    rw [h.size, hbare]
    exact ⟨hlt, hargs, fun name k params hd =>
      (hshape v).trans (hv name k params (h.declares.mp hd))⟩
  · intro ty b hb
    rw [h.size]
    exact hvalid ty b hb
  · intro name d params body sum hd hb hp
    obtain ⟨sumName, hsum⟩ := hparent (h.declares.mp hd) hb hp
    exact ⟨sumName, h.declares.mpr hsum⟩
  · intro name sum params tags tag hd ht hmem
    obtain ⟨tagName, body, htag, hb, hp⟩ := htags (h.declares.mp hd) ht hmem
    exact ⟨tagName, body, h.declares.mpr htag, hb, hp⟩

theorem KeepsDeclared.coherent {st' : Store} (h : KeepsDeclared st st') (hco : st.Coherent)
    (hvalid : ∀ ty b, st'.nominals.bodies[ty]? = some b →
      ty < st.size ∧ ∀ c ∈ b.parts, c < st.size) : st'.Coherent := by
  refine h.toSameButBodies.coherent hco hvalid ?_ ?_
  · intro name d params body sum hd hb hp
    rcases h.bodies hd.declared with heq | ⟨-, b, hb', hempty⟩
    · rw [productBody?_eq_some, heq, ← productBody?_eq_some] at hb
      exact hco.parent hd hb hp
    · rw [productBody?_eq_some, hb', hempty hd] at hb
      obtain rfl := Body.product.inj (Option.some.inj hb)
      cases hp
  · intro name sum params tags tag hd ht hmem
    rcases h.bodies hd.declared with heq | ⟨-, b, hb', hempty⟩
    · rw [sumTags?_eq_some, heq, ← sumTags?_eq_some] at ht
      obtain ⟨tagName, body, htag, hb, hp⟩ := hco.tags hd ht hmem
      exact ⟨tagName, body, htag, h.advances.productBody? htag.declared hb, hp⟩
    · rw [sumTags?_eq_some, hb', hempty hd] at ht
      obtain rfl := Body.sum.inj (Option.some.inj ht)
      cases hmem

theorem sameButBodies_setBody (st : Store) (ty : TypeId) (body : Body) :
    SameButBodies st (st.setBody ty body) := ⟨rfl, rfl, rfl, rfl⟩

theorem bodies_setBody (st : Store) (ty : TypeId) (body : Body) (x : TypeId) :
    (st.setBody ty body).nominals.bodies[x]? =
      if ty = x then some body else st.nominals.bodies[x]? := by
  show (st.nominals.bodies.insert ty body)[x]? = _
  rw [Std.HashMap.getElem?_insert]
  simp only [beq_iff_eq]

theorem bodies_ensureBody (ty : TypeId) (body : Body) (st : Store) (x : TypeId) :
    (DeclM.ensureBody ty body st).nominals.bodies[x]? =
      (st.nominals.bodies[x]?).or (if ty = x then some body else none) := by
  unfold DeclM.ensureBody
  by_cases hty : st.nominals.bodies.contains ty = true
  · rw [if_pos hty]
    by_cases hx : ty = x
    · subst hx
      rw [Std.HashMap.contains_eq_isSome_getElem?] at hty
      obtain ⟨b, hb⟩ := Option.isSome_iff_exists.mp hty
      rw [hb]
      rfl
    · rw [if_neg hx, Option.or_none]
  · rw [if_neg hty, bodies_setBody]
    by_cases hx : ty = x
    · subst hx
      have hnone : st.nominals.bodies[ty]? = none := by
        rw [Std.HashMap.contains_eq_isSome_getElem?] at hty
        simpa using hty
      rw [if_pos rfl, if_pos rfl, hnone]
      rfl
    · rw [if_neg hx, if_neg hx, Option.or_none]

theorem sameButBodies_ensureBody (ty : TypeId) (body : Body) (st : Store) :
    SameButBodies st (DeclM.ensureBody ty body st) := by
  unfold DeclM.ensureBody
  split
  · exact ⟨rfl, rfl, rfl, rfl⟩
  · exact sameButBodies_setBody st ty body

/-- A change of bodies keeps the error type out of them if the new ones are without it. -/
theorem SameButBodies.faultless {st' : Store} (h : SameButBodies st st')
    (hbodies : ∀ (ty : TypeId) (b : Body), st'.nominals.bodies[ty]? = some b →
      ∀ c ∈ b.parts, st.Whole c) : st'.Faultless := by
  intro ty b hb c hc
  exact (hbodies ty b hb c hc).of_le h.le

section Ensure

variable {body : Body}
  (hparts : st.Faultless → ∀ c ∈ body.parts, st.Whole c)
  (hempty : ∀ {name k params}, st.Declares name ty k params → st.nominals.bodies[ty]? = none →
    body = k.emptyBody)
include hempty hparts

theorem keepsDeclared_ensureBody : KeepsDeclared st (DeclM.ensureBody ty body st) where
  toSameButBodies := sameButBodies_ensureBody ty body st
  bodies {name d} hd := by
    rw [bodies_ensureBody]
    cases hb : st.nominals.bodies[d]? with
    | some b => exact Or.inl rfl
    | none =>
      by_cases hx : ty = d
      · subst hx
        exact Or.inr ⟨rfl, body, by simp, fun hdecl => hempty hdecl hb⟩
      · exact Or.inl (by simp [hx])
  faultless hst := by
    refine (sameButBodies_ensureBody ty body st).faultless fun x b hb => ?_
    rw [bodies_ensureBody, Option.or_eq_some_iff] at hb
    rcases hb with hb | ⟨-, hb⟩
    · exact hst x b hb
    · split at hb
      · exact Option.some.inj hb ▸ hparts hst
      · cases hb

theorem Coherent.ensureBody (hco : st.Coherent) (hty : ty < st.size)
    (hbelow : ∀ c ∈ body.parts, c < st.size) : (DeclM.ensureBody ty body st).Coherent := by
  refine (keepsDeclared_ensureBody hparts hempty).coherent hco fun x b hb => ?_
  rw [bodies_ensureBody] at hb
  cases hx : st.nominals.bodies[x]? with
  | some b' =>
    rw [hx] at hb
    obtain rfl := Option.some.inj hb
    exact hco.bodies hx
  | none =>
    rw [hx, Option.none_or] at hb
    split at hb
    · next heq =>
      obtain rfl := Option.some.inj hb
      exact heq ▸ ⟨hty, hbelow⟩
    · cases hb

end Ensure

/-! ## Tying a tag to its sum -/

theorem bodies_bindParent {tag sum : TypeId} {body : ProductBody}
    (h : st.productBody? tag = some body) (x : TypeId) :
    (st.bindParent tag sum).nominals.bodies[x]? =
      if tag = x then some (.product { body with parent := body.parent.or (some sum) })
      else st.nominals.bodies[x]? := by
  rw [bindParent, h]
  exact bodies_setBody _ _ _ _

theorem bindParent_of_none {tag sum : TypeId} (h : st.productBody? tag = none) :
    st.bindParent tag sum = st := by
  rw [bindParent, h]

theorem sameButBodies_bindParent (st : Store) (tag sum : TypeId) :
    SameButBodies st (st.bindParent tag sum) := by
  unfold bindParent
  split
  · exact sameButBodies_setBody _ _ _
  · exact ⟨rfl, rfl, rfl, rfl⟩

/-- A tag is tied to a sum without the error type. -/
theorem faultless_bindParent {tag sum : TypeId} (hsum : st.Whole sum) (hst : st.Faultless) :
    (st.bindParent tag sum).Faultless := by
  refine (sameButBodies_bindParent st tag sum).faultless fun x b hb => ?_
  cases hbody : st.productBody? tag with
  | none =>
    rw [bindParent_of_none hbody] at hb
    exact hst x b hb
  | some body =>
    rw [bodies_bindParent hbody] at hb
    split at hb
    · obtain rfl := Option.some.inj hb
      intro c hc
      have hparts := hst tag _ (productBody?_eq_some.mp hbody)
      rcases List.mem_append.mp hc with hc | hc
      · exact hparts c (List.mem_append_left _ hc)
      · cases hp : body.parent with
        | none =>
          rw [hp, Option.none_or, Option.toList_some, List.mem_singleton] at hc
          exact hc ▸ hsum
        | some s =>
          rw [hp, Option.some_or] at hc
          exact hparts c (List.mem_append_right _ (by rw [hp]; exact hc))
    · exact hst x b hb

section Bind

variable {tag sum : TypeId}
  (hbound : ∀ name body, st.declared? name = some tag → st.productBody? tag = some body →
    body.parent.isSome = true)
  (hsum : st.Whole sum)
include hbound hsum

variable (st tag sum) in
/-- A declared tag is tied to its sum once and for all. -/
theorem keepsDeclared_bindParent : KeepsDeclared st (st.bindParent tag sum) where
  toSameButBodies := sameButBodies_bindParent st tag sum
  bodies {name d} hd := by
    cases hb : st.productBody? tag with
    | none => rw [bindParent_of_none hb]; exact Or.inl rfl
    | some body =>
      rw [bodies_bindParent hb]
      by_cases hx : tag = d
      · subst hx
        obtain ⟨s, hs⟩ := Option.isSome_iff_exists.mp (hbound name body hd hb)
        rw [if_pos rfl, productBody?_eq_some.mp hb, hs, Option.some_or, ← hs]
        exact Or.inl rfl
      · exact Or.inl (if_neg hx)
  faultless := faultless_bindParent hsum

theorem Coherent.bindParent (hco : st.Coherent) : (st.bindParent tag sum).Coherent := by
  refine (keepsDeclared_bindParent st tag sum hbound hsum).coherent hco fun x b hb => ?_
  cases hbody : st.productBody? tag with
  | none =>
    rw [bindParent_of_none hbody] at hb
    exact hco.bodies hb
  | some body =>
    rw [bodies_bindParent hbody] at hb
    split at hb
    · next heq =>
      obtain rfl := Option.some.inj hb
      obtain ⟨hlt, hparts⟩ := hco.bodies (productBody?_eq_some.mp hbody)
      refine heq ▸ ⟨hlt, fun c hc => ?_⟩
      rcases List.mem_append.mp hc with hc | hc
      · exact hparts c (List.mem_append_left _ hc)
      · cases hp : body.parent with
        | none =>
          rw [hp, Option.none_or, Option.toList_some, List.mem_singleton] at hc
          exact hc ▸ hsum.1
        | some s =>
          refine hparts c (List.mem_append_right _ ?_)
          simpa [hp] using hc
    · exact hco.bodies hb

end Bind

/-! ## Replacing parameters -/

/-- The variables that a list of types stands for. -/
def idents (st : Store) (params : List TypeId) : List VarIdent :=
  params.filterMap fun p => (st.shape p).varIdent?

theorem idents_of_le {st' : Store} (hle : st ≤ st') (hparams : ∀ p ∈ params, p < st.size) :
    st'.idents params = st.idents params :=
  List.filterMap_congr fun p hp => by rw [shape_of_le hle (hparams p hp)]

/-- Looking up a variable among parameters reads as looking up its name among theirs. -/
theorem tree_lookup {x : VarIdent} (hvars : ∀ p ∈ params, st.isVar p = true)
    (hv : st.shape v = .var x) :
    st.tree (((params.zip args).lookup v).getD v) =
      TypeTree.assign .var (st.idents params) (args.map st.tree) x := by
  induction params generalizing args with
  | nil => exact tree_of_var hv
  | cons p params ih =>
    obtain ⟨y, hy⟩ := Shape.isVar_iff.mp (hvars p List.mem_cons_self)
    have hids : st.idents (p :: params) = y :: st.idents params := by
      simp [idents, hy, Shape.varIdent?]
    cases args with
    | nil => rw [hids]; exact tree_of_var hv
    | cons a args =>
      rw [hids, List.map_cons, TypeTree.assign, List.zip_cons_cons, List.zip_cons_cons,
        List.lookup_cons, List.lookup_cons]
      by_cases hvp : v = p
      · subst hvp
        obtain rfl : x = y := Shape.var.inj (hv.symm.trans hy)
        simp
      · have hxy : x ≠ y := fun h => hvp (eq_of_shape_var hv (h ▸ hy))
        rw [beq_false_of_ne hvp, beq_false_of_ne hxy]
        exact ih fun q hq => hvars q (List.mem_cons_of_mem p hq)

/-! ## The recursion -/

/-- `v` is a declared product or sum at arguments. -/
structure IsInstance (st : Store) (name : Name) (k : DeclKind) (args : List TypeId)
    (v : TypeId) : Prop where
  lt_size : v < st.size
  shape : st.shape v = k.shape name (args.map st.bare)

theorem IsInstance.of_le {st' : Store} (h : st.IsInstance name k args v)
    (hargs : ∀ a ∈ args, a < st.size) (hle : st ≤ st') : st'.IsInstance name k args v := by
  refine ⟨lt_size_of_le hle h.lt_size, ?_⟩
  rw [shape_of_le hle h.lt_size, h.shape]
  congr 1
  exact List.map_congr_left fun a ha => (bare_of_le hle (hargs a ha)).symm

/-- An instance is the application of a name to arguments. -/
theorem IsInstance.tree_eq (h : st.IsInstance name k args v) :
    st.tree v = .mk (k.shape name (args.map st.tree)) := by
  have hq : (st.shape v).isQualified = false := by rw [h.shape]; cases k <;> rfl
  rw [tree_of_not_qualified hq, h.shape, DeclKind.map_shape, List.map_map]
  congr 2
  exact List.map_congr_left fun a _ => tree_bare st a

/-- An instance at arguments without the error type is without it. -/
theorem IsInstance.whole (h : st.IsInstance name k args v) (hargs : ∀ a ∈ args, st.Whole a) :
    st.Whole v := by
  refine ⟨h.lt_size, ?_⟩
  rw [h.tree_eq, TypeTree.faultless_mk, DeclKind.children_shape, List.forall_mem_map]
  exact ⟨by cases k <;> rfl, fun a ha => (hargs a ha).2⟩

/-- An instance that is declared is the declaration it is an instance of. -/
theorem IsInstance.eq_of_declared {name' : Name} (h : st.IsInstance name k args v)
    (hco : st.Coherent) (hd : st.Declares name d k params)
    (hv : st.declared? name' = some v) : v = d := by
  obtain ⟨-, k', params', hdecl, -⟩ := hco.declares hv
  obtain ⟨-, rfl, -⟩ := DeclKind.shape_inj (h.shape.symm.trans hdecl.shape)
  exact (hdecl.unique hd).1

/-- A declaration at its own parameters. -/
theorem Declares.isInstance (hd : st.Declares name d k params) (hco : st.Coherent) :
    st.IsInstance name k params d := by
  obtain ⟨-, k', params', hdecl, hvars⟩ := hco.declares hd.declared
  obtain ⟨-, rfl, rfl⟩ := hd.unique hdecl
  refine ⟨hd.lt_size, hd.shape.trans ?_⟩
  congr 1
  refine (List.map_id params).symm.trans (List.map_congr_left fun p hp => ?_)
  refine (bare_of_not_qualified ?_).symm
  obtain ⟨x, hx⟩ := Shape.isVar_iff.mp (hvars p hp)
  rw [id_eq, hx]
  rfl

/-! ## The depth that is needed -/

/-- The declarations that are not entered at given arguments. -/
def pending (st : Store) (args : List TypeId) : Finset TypeId :=
  (st.nominals.declared.toList.map Prod.snd).toFinset.filter fun d =>
    st.nominals.variants[(d, args)]? = none

theorem mem_pending : d ∈ st.pending args ↔
    (∃ name, st.declared? name = some d) ∧ st.nominals.variants[(d, args)]? = none := by
  simp only [pending, Finset.mem_filter, List.mem_toFinset, List.mem_map, Prod.exists,
    exists_eq_right, Std.HashMap.mem_toList_iff_getElem?_eq_some, declared?]

section Entered

variable {st' : Store} (hdeclared : st'.nominals.declared = st.nominals.declared)
  (hvariants : ∀ {key : TypeId × List TypeId} {v : TypeId},
    st.nominals.variants[key]? = some v → st'.nominals.variants[key]? = some v)
include hdeclared hvariants

theorem pending_subset : st'.pending args ⊆ st.pending args := by
  intro d hd
  obtain ⟨⟨name, hname⟩, hnone⟩ := mem_pending.mp hd
  rw [Store.declared?, hdeclared] at hname
  refine mem_pending.mpr ⟨⟨name, hname⟩, ?_⟩
  cases hv : st.nominals.variants[(d, args)]? with
  | none => rfl
  | some v =>
    rw [hvariants hv] at hnone
    cases hnone

theorem card_pending_lt (hd : st.declared? name = some d)
    (hnew : st.nominals.variants[(d, args)]? = none)
    (hv : st'.nominals.variants[(d, args)]? = some v) :
    (st'.pending args).card < (st.pending args).card := by
  refine Finset.card_lt_card
    (Finset.ssubset_iff_of_subset (pending_subset hdeclared hvariants) |>.mpr ?_)
  refine ⟨d, mem_pending.mpr ⟨⟨name, hd⟩, hnew⟩, fun hmem => ?_⟩
  rw [(mem_pending.mp hmem).2] at hv
  cases hv

end Entered

/-- Every declaration is among the types whose declaration is kept. -/
theorem card_pending_le (hself : ∀ {name : Name} {d : TypeId}, st.declared? name = some d →
    st.nominals.declOf[d]? = some d) (args : List TypeId) :
    (st.pending args).card ≤ st.nominals.declOf.size := by
  rw [← Std.HashMap.length_keys]
  refine le_trans (Finset.card_le_card fun d hd => ?_) (List.toFinset_card_le _)
  obtain ⟨⟨name, hname⟩, -⟩ := mem_pending.mp hd
  rw [List.mem_toFinset, Std.HashMap.mem_keys, Std.HashMap.mem_iff_isSome_getElem?, hself hname]
  rfl

theorem Coherent.card_pending_le (hco : st.Coherent) (args : List TypeId) :
    (st.pending args).card ≤ st.nominals.declOf.size :=
  Store.card_pending_le (fun hname => (hco.declares hname).1) args

end Store

namespace DeclM

open Store StoreM TypeTree

variable {st : Store} {name : Name} {d v ty : TypeId} {k : DeclKind}
  {params parts args : List TypeId}

theorem gives_declarationFor {E : Store → Prop} {Q : TypeId → Store → Prop}
    (hown : st.declOf? d = some d) (hd : st.Declares name d k params)
    (hE : params.length ≠ args.length → E st) (hQ : params.length = args.length → Q d st) :
    Gives (declarationFor d args) st E Q := by
  refine gives_get_bind ?_
  simp only [hown, hd.nominalArgs]
  by_cases hlen : params.length = args.length
  · rw [if_neg (not_not_intro hlen)]
    exact gives_pure (hQ hlen)
  · rw [if_pos hlen]
    exact gives_throw (hE hlen)

/-- The instance of `d` at `args` with its number, built, entered and given a body. -/
def enterWith (d : TypeId) (args : List TypeId) (shape : Shape TypeId) (body : Body) (st : Store) :
    TypeId × Store :=
  let v := intern shape st
  (v.1, ensureBody v.1 body (enterVariant d args v.1 v.2))

theorem variants_enterWith (d : TypeId) (args : List TypeId) (shape : Shape TypeId) (b : Body)
    (st : Store) :
    (enterWith d args shape b st).2.nominals.variants =
      st.nominals.variants.insert (d, args) (enterWith d args shape b st).1 :=
  (sameButBodies_ensureBody _ b _).variants

/-- The body of a new product over given fields, before it is tied to a sum. -/
def productOver (st : Store) (d : TypeId) (fields : List TypeId) : ProductBody where
  fields := fields
  fieldNames := ((st.productBody? d).map (·.fieldNames)).getD (List.replicate fields.length none)
  parent := none

theorem emptyBody_productOver (hnone : st.nominals.bodies[d]? = none → parts = [])
    (hbody : st.nominals.bodies[d]? = none) :
    Body.product (productOver st d parts) = DeclKind.product.emptyBody := by
  rw [productOver, productBody?, hbody, hnone hbody]
  rfl

section Rules

variable {inst : TypeId → List TypeId → DeclM TypeId} {E : Store → Prop}
  {Q : TypeId → Store → Prop} {depth : Nat}

/-- The ways in which an instance of a product is made from its fields. -/
theorem gives_variantWith_product (hown : st.declOf? d = some d)
    (hd : st.Declares name d .product params)
    (hE : params.length ≠ args.length → E st) (hself : params = args → Q d st)
    (hfound : ∀ w, st.nominals.variants[(d, args)]? = some w → Q w st)
    (hnew : st.nominals.variants[(d, args)]? = none → params ≠ args →
      params.length = args.length →
      let v := enterWith d args (DeclKind.product.shape name args)
        (.product (productOver st d parts)) st
      ((st.productBody? d).bind (·.parent) = none → Q v.1 v.2) ∧
        ∀ sum, (st.productBody? d).bind (·.parent) = some sum →
          Gives (inst sum args) v.2 E fun s st' => Q v.1 (st'.bindParent v.1 s)) :
    Gives (variantWith inst d parts args) st E Q := by
  unfold variantWith
  refine Gives.bind (gives_declarationFor (Q := fun d' st' => d = d' ∧ st = st' ∧
    params.length = args.length) hown hd hE fun hlen => ⟨rfl, rfl, hlen⟩) ?_
  rintro _ _ ⟨rfl, rfl, hlen⟩
  refine gives_get_bind ?_
  rw [hd.nominalArgs]
  by_cases hargs : params = args
  · rw [if_pos hargs]
    exact gives_pure (hself hargs)
  rw [if_neg hargs]
  cases hv : st.nominals.variants[(d, args)]? with
  | some w => exact gives_pure (hfound w hv)
  | none =>
    obtain ⟨hplain, htag⟩ := hnew hv hargs hlen
    rw [hd.shape, hd.kind, DeclKind.variantShape_shape]
    refine Gives.bind
      (gives_lift (Q := fun v st' => (v, st') = intern (DeclKind.product.shape name args) st) rfl)
      fun v st₁ hv₁ => gives_modify_bind (gives_modify_bind ?_)
    rw [enterWith, ← hv₁] at hplain htag
    unfold productOver at hplain htag
    cases hb : st.productBody? d with
    | none =>
      rw [hb] at hplain
      exact gives_pure (hplain rfl)
    | some body =>
      rw [hb] at hplain htag
      dsimp only
      cases hp : body.parent with
      | none => exact gives_pure (hplain hp)
      | some sum =>
        refine (htag sum hp).bind fun s st' hQ => gives_modify_bind (gives_pure hQ)

/-- The ways in which an instance of a sum is made from its tags. -/
theorem gives_variantWith_sum (hown : st.declOf? d = some d)
    (hd : st.Declares name d .sum params)
    (hE : params.length ≠ args.length → E st) (hself : params = args → Q d st)
    (hfound : ∀ w, st.nominals.variants[(d, args)]? = some w → Q w st)
    (hnew : st.nominals.variants[(d, args)]? = none → params ≠ args →
      params.length = args.length →
      let v := enterWith d args (DeclKind.sum.shape name args) (.sum parts) st
      Q v.1 (parts.foldl (fun st tag => st.bindParent tag v.1) v.2)) :
    Gives (variantWith inst d parts args) st E Q := by
  unfold variantWith
  refine Gives.bind (gives_declarationFor (Q := fun d' st' => d = d' ∧ st = st' ∧
    params.length = args.length) hown hd hE fun hlen => ⟨rfl, rfl, hlen⟩) ?_
  rintro _ _ ⟨rfl, rfl, hlen⟩
  refine gives_get_bind ?_
  rw [hd.nominalArgs]
  by_cases hargs : params = args
  · rw [if_pos hargs]
    exact gives_pure (hself hargs)
  rw [if_neg hargs]
  cases hv : st.nominals.variants[(d, args)]? with
  | some w => exact gives_pure (hfound w hv)
  | none =>
    have hQ := hnew hv hargs hlen
    rw [hd.shape, hd.kind, DeclKind.variantShape_shape]
    refine Gives.bind
      (gives_lift (Q := fun v st' => (v, st') = intern (DeclKind.sum.shape name args) st) rfl)
      fun v st₁ hv₁ => gives_modify_bind (gives_modify_bind (gives_modify_bind (gives_pure ?_)))
    rw [enterWith, ← hv₁] at hQ
    exact hQ

/-- The ways in which the recursion goes on. -/
theorem gives_instantiateWithin_succ (hown : st.declOf? d = some d)
    (hd : st.Declares name d k params)
    (hE : params.length ≠ args.length → E st) (hself : params = args → Q d st)
    (hfound : params ≠ args → ∀ w, st.nominals.variants[(d, args)]? = some w → Q w st)
    (hproduct : k = .product → params ≠ args → params.length = args.length →
      st.nominals.variants[(d, args)]? = none →
      Gives ((((st.productBody? d).map (·.fields)).getD []).mapM fun field =>
          (liftM (substituteAll (params.zip args) field) : DeclM TypeId)) st E
        fun parts st' => Gives (variantWith (instantiateWithin depth) d parts args) st' E Q)
    (hsum : k = .sum → params ≠ args → params.length = args.length →
      st.nominals.variants[(d, args)]? = none →
      Gives (((st.sumTags? d).getD []).mapM fun tag => instantiateWithin depth tag args) st E
        fun parts st' => Gives (variantWith (instantiateWithin depth) d parts args) st' E Q) :
    Gives (instantiateWithin (depth + 1) d args) st E Q := by
  unfold instantiateWithin
  refine Gives.bind (gives_declarationFor (Q := fun d' st' => d = d' ∧ st = st' ∧
    params.length = args.length) hown hd hE fun hlen => ⟨rfl, rfl, hlen⟩) ?_
  rintro _ _ ⟨rfl, rfl, hlen⟩
  refine gives_get_bind ?_
  rw [hd.nominalArgs]
  by_cases hargs : params = args
  · rw [if_pos hargs]
    exact gives_pure (hself hargs)
  rw [if_neg hargs]
  cases hv : st.nominals.variants[(d, args)]? with
  | some w => exact gives_pure (hfound hargs w hv)
  | none =>
    rw [hd.kind]
    cases k with
    | product => exact (hproduct rfl hargs hlen hv).bind fun parts st' h => h
    | sum => exact (hsum rfl hargs hlen hv).bind fun parts st' h => h

end Rules

/-! ## However it ends -/

/-- The depth that a product needs when nothing is pending, and a sum, which goes to its tags. -/
def leastDepth : DeclKind → Nat
  | .product => 1
  | .sum => 2

/-- Ending with an advance to a coherent store. -/
abbrev EndsWell (st st' : Store) : Prop := st.Advances st' ∧ st'.Coherent

/-- What making the instance of a declaration comes to. -/
abbrev Made (name : Name) (k : DeclKind) (args : List TypeId) (st : Store) (v : TypeId)
    (st' : Store) : Prop :=
  EndsWell st st' ∧ st'.IsInstance name k args v

theorem made_enterVariant (hco : st.Coherent) (hd : st.Declares name d k params)
    (hargs : ∀ a ∈ args, a < st.size) (hnew : st.nominals.variants[(d, args)]? = none) :
    let v := intern (k.shape name args) st
    Made name k args st v.1 (enterVariant d args v.1 v.2) := by
  intro v
  have hyields := yields_intern (s := k.shape name args) (by simp) (by simpa using hargs)
  have hle := hyields.steps.le
  have hadv : st.Advances v.2 := .of_nominals hle rfl
  have hinst : v.2.IsInstance name k args v.1 := by
    refine ⟨hyields.result.1, hyields.result.2.trans ?_⟩
    rw [DeclKind.map_shape]
    congr 1
    exact List.map_congr_left fun a ha => (bare_of_le hle (hargs a ha)).symm
  have hargs' : ∀ a ∈ args, a < v.2.size := fun a ha => lt_size_of_le hle (hargs a ha)
  have hdecl : v.2.declared? name = some d := (hadv.declared? name).trans hd.declared
  exact ⟨⟨hadv.trans (advances_enterVariant hdecl hinst.lt_size hnew),
    (hco.of_nominals hle rfl).enterVariant (hadv.declares hd) hinst.lt_size hargs' hinst.shape⟩,
    hinst.lt_size, hinst.shape⟩

theorem made_ensureBody {st₂ : Store} {body : Body} (hmade : Made name k args st v st₂)
    (hd : st.Declares name d k params) (hargs : ∀ a ∈ args, a < st.size)
    (hparts : ∀ c ∈ body.parts, c < st.size)
    (hwhole : st₂.Faultless → ∀ c ∈ body.parts, st.Whole c)
    (hempty : st₂.nominals.bodies[d]? = none → body = k.emptyBody) :
    Made name k args st v (ensureBody v body st₂) := by
  obtain ⟨⟨hadv, hco₂⟩, hinst⟩ := hmade
  -- an instance that is declared is the declaration itself, and that has no body but an empty one
  have hempty₂ : ∀ {name' k' params'}, st₂.Declares name' v k' params' →
      st₂.nominals.bodies[v]? = none → body = k'.emptyBody := by
    intro name' k' params' hd' hnone
    have heq := hinst.eq_of_declared hco₂ (hadv.declares hd) hd'.declared
    rw [heq] at hnone hd'
    rw [← ((hadv.declares hd).unique_of_id hd').2.1]
    exact hempty hnone
  have hwhole₂ : st₂.Faultless → ∀ c ∈ body.parts, st₂.Whole c :=
    fun hst₂ c hc => (hwhole hst₂ c hc).of_le hadv.le
  have hkeep := keepsDeclared_ensureBody hwhole₂ hempty₂
  refine ⟨⟨hadv.trans hkeep.advances,
    hco₂.ensureBody hwhole₂ hempty₂ hinst.lt_size fun c hc => ?_⟩, ?_⟩
  · exact lt_size_of_le hadv.le (hparts c hc)
  · exact hinst.of_le (fun a ha => lt_size_of_le hadv.le (hargs a ha)) hkeep.advances.le

theorem made_enterWith (body : Body) (hco : st.Coherent) (hd : st.Declares name d k params)
    (hargs : ∀ a ∈ args, a < st.size) (hnew : st.nominals.variants[(d, args)]? = none)
    (hparts : ∀ c ∈ body.parts, c < st.size)
    (hwhole : st.Faultless → ∀ c ∈ body.parts, (st.tree c).Faultless)
    (hempty : st.nominals.bodies[d]? = none → body = k.emptyBody) :
    Made name k args st (enterWith d args (k.shape name args) body st).1
      (enterWith d args (k.shape name args) body st).2 :=
  made_ensureBody (made_enterVariant hco hd hargs hnew) hd hargs hparts
    (fun h c hc => ⟨hparts c hc, hwhole (h.of_ge hco (intern_le _ st) rfl) c hc⟩) hempty

theorem endsWell_foldl_bindParent (parts : List TypeId) {sum : TypeId} (hco : st.Coherent)
    (hsum : st.Whole sum) (hbound : ∀ tag ∈ parts, ∀ name, st.declared? name = some tag →
      ∃ body, st.productBody? tag = some body ∧ body.parent.isSome = true) :
    EndsWell st (parts.foldl (fun st tag => st.bindParent tag sum) st) := by
  induction parts generalizing st with
  | nil => exact ⟨.refl st, hco⟩
  | cons tag rest ih =>
    have htag : ∀ name body, st.declared? name = some tag → st.productBody? tag = some body →
        body.parent.isSome = true := by
      intro name body hname hbody
      obtain ⟨body', hbody', hsome⟩ := hbound tag List.mem_cons_self name hname
      rw [hbody] at hbody'
      exact Option.some.inj hbody' ▸ hsome
    have hadv := (keepsDeclared_bindParent st tag sum htag hsum).advances
    have hrest := ih (hco.bindParent htag hsum) (hsum.of_le hadv.le) ?_
    · exact ⟨hadv.trans hrest.1, hrest.2⟩
    · intro tag' hmem name hname
      rw [hadv.declared?] at hname
      obtain ⟨body, hbody, hsome⟩ := hbound tag' (List.mem_cons_of_mem tag hmem) name hname
      exact ⟨body, hadv.productBody? hname hbody, hsome⟩

/-- A type was made from another by replacing variables. -/
def Replaced (mapping : List (TypeId × TypeId)) (st : Store) (f p : TypeId) : Prop :=
  ∃ st₀, f < st₀.size ∧ (∀ q ∈ mapping, q.2 < st₀.size) ∧ (substituteAll mapping f st₀).1 = p ∧
    (substituteAll mapping f st₀).2 ≤ st

theorem Replaced.of_le {mapping : List (TypeId × TypeId)} {st' : Store} {f p : TypeId}
    (h : Replaced mapping st f p) (hle : st ≤ st') : Replaced mapping st' f p := by
  obtain ⟨st₀, hf, hmapping, hp, hle₀⟩ := h
  exact ⟨st₀, hf, hmapping, hp, le_trans hle₀ hle⟩

theorem replaced_nil {f : TypeId} (hf : f < st.size) : Replaced [] st f f :=
  ⟨st, hf, by simp, rfl, le_rfl⟩

/-- Replacing parameters in a list of types adds types only, and it reads as the replacement of
variables in their trees. -/
theorem gives_substituteEach {ε : Type} {E : Store → Prop} {fields : List TypeId}
    (hvars : ∀ p ∈ params, st.isVar p = true) (hargs : ∀ a ∈ args, a < st.size)
    (hfields : ∀ f ∈ fields, f < st.size) :
    Gives (fields.mapM fun field =>
        (liftM (substituteAll (params.zip args) field) : ExceptT ε StoreM TypeId)) st E
      fun parts st' => (st ≤ st' ∧ st'.nominals = st.nominals) ∧
        List.Forall₂ (fun f p => p < st'.size ∧
          st'.tree p = (st.tree f).subst (assign var (st.idents params) (args.map st.tree)))
          fields parts ∧
        List.Forall₂ (Replaced (params.zip args) st') fields parts := by
  have hloop := gives_mapM fields st (ε := ε) (E := E)
    (f := fun field => liftM (substituteAll (params.zip args) field))
    (I := fun st' => st ≤ st' ∧ st'.nominals = st.nominals)
    (P := fun f p st' => (p < st'.size ∧
      st'.tree p = (st.tree f).subst (assign var (st.idents params) (args.map st.tree))) ∧
        Replaced (params.zip args) st' f p)
    ⟨le_rfl, rfl⟩ ?_ ?_
  · exact hloop.mono (fun _ h => h) fun parts st' h =>
      ⟨h.2.1, h.2.2.imp fun _ _ h => h.1, h.2.2.imp fun _ _ h => h.2⟩
  · rintro f p st₁ st₂ hadv ⟨h, hreplaced⟩
    exact ⟨⟨lt_size_of_le hadv.le h.1, by rw [tree_of_le hadv.le h.1, h.2]⟩,
      hreplaced.of_le hadv.le⟩
  · rintro f hf st' _ ⟨hle, hnom⟩
    have hbuilds := builds_substituteAll (params.zip args) f st'
    have hreplaced : Replaced (params.zip args) (substituteAll (params.zip args) f st').2 f
        (substituteAll (params.zip args) f st').1 :=
      ⟨st', lt_size_of_le hle (hfields f hf),
        fun p hp => lt_size_of_le hle (hargs p.2 (List.of_mem_zip hp).2), rfl, le_rfl⟩
    refine gives_lift ⟨.of_nominals hbuilds.1 hbuilds.2,
      ⟨le_trans hle hbuilds.1, hbuilds.2.trans hnom⟩, ?_, hreplaced⟩
    clear hreplaced
    unfold substituteAll
    by_cases hempty : (params.zip args).isEmpty = true
    · rw [if_pos hempty]
      have hassign : assign var (st.idents params) (args.map st.tree) = var := by
        rcases List.zip_eq_nil_iff.mp (List.isEmpty_iff.mp hempty) with rfl | rfl
        · rfl
        · funext x
          simp [assign]
      rw [hassign, subst_var_eq_self]
      exact ⟨lt_size_of_le hle (hfields f hf), tree_of_le hle (hfields f hf)⟩
    · rw [if_neg hempty]
      have hzip : ∀ p ∈ params.zip args, p.2 < st.size := fun p hp =>
        hargs p.2 (List.of_mem_zip hp).2
      exact (yields_mapVars_from (fun v x hv hx => ⟨lookup_lt hzip hv, tree_lookup hvars hx⟩) hle
        (hfields f hf)).result

/-- An instance made from given parts, however that ends.  A declaration without a body has no
parts, and a part that is itself declared is tied to its sum already. -/
theorem gives_variantWith {inst : TypeId → List TypeId → DeclM TypeId} {E : Store → Prop}
    (hco : st.Coherent) (hd : st.Declares name d k params) (hargs : ∀ a ∈ args, st.Whole a)
    (hparts : ∀ c ∈ parts, c < st.size)
    (hwhole : st.Faultless → ∀ c ∈ parts, (st.tree c).Faultless)
    (hnone : st.nominals.bodies[d]? = none → parts = [])
    (hbound : k = .sum → ∀ tag ∈ parts, ∀ name, st.declared? name = some tag →
      ∃ body, st.productBody? tag = some body ∧ body.parent.isSome = true)
    (hE : params.length ≠ args.length → E st)
    (hinst : k = .product → ∀ sumName sum st', EndsWell st st' →
      st'.nominals.variants[(d, args)]? ≠ none → st'.Declares sumName sum .sum params →
        Gives (inst sum args) st' E (Made sumName .sum args st')) :
    Gives (variantWith inst d parts args) st E (Made name k args st) := by
  have hargs_lt : ∀ a ∈ args, a < st.size := fun a ha => (hargs a ha).1
  have hself : params = args → Made name k args st d st :=
    fun h => ⟨⟨.refl st, hco⟩, h ▸ hd.isInstance hco⟩
  have hfound : ∀ w, st.nominals.variants[(d, args)]? = some w → Made name k args st w st := by
    intro w hw
    obtain ⟨hlt, -, hshape⟩ := hco.variants hw
    exact ⟨⟨.refl st, hco⟩, hlt, hshape _ _ _ hd⟩
  cases k with
  | product =>
    refine gives_variantWith_product (hco.declOf?_self hd.declared) hd hE hself hfound
      fun hnew _ _ => ?_
    have hmade := made_enterWith (.product (productOver st d parts)) hco hd hargs_lt hnew
      (by simpa [Body.parts, productOver] using hparts)
      (by simpa [Body.parts, productOver] using hwhole) (emptyBody_productOver hnone)
    refine ⟨fun _ => hmade, fun sum hsum => ?_⟩
    obtain ⟨body, hbody, hparent⟩ := Option.bind_eq_some_iff.mp hsum
    obtain ⟨sumName, hsum⟩ := hco.parent hd hbody hparent
    have hentered := variants_enterWith d args (DeclKind.product.shape name args)
      (.product (productOver st d parts)) st
    generalize enterWith d args (DeclKind.product.shape name args) _ st = v at hmade hentered ⊢
    obtain ⟨hends, hv⟩ := hmade
    refine (hinst rfl sumName sum v.2 hends ?_ (hends.1.declares hsum)).mono (fun _ h => h) ?_
    · rw [hentered, Std.HashMap.getElem?_insert_self]
      exact Option.some_ne_none _
    · rintro s st' ⟨⟨hadv, hco'⟩, hs⟩
      have hadv' := hends.1.trans hadv
      have hargs' : ∀ a ∈ args, a < v.2.size :=
        fun a ha => lt_size_of_le hends.1.le (hargs_lt a ha)
      have hv' := hv.of_le hargs' hadv.le
      have hwhole := hs.whole fun a ha => (hargs a ha).of_le hadv'.le
      have htied : ∀ name' body', st'.declared? name' = some v.1 →
          st'.productBody? v.1 = some body' → body'.parent.isSome = true := by
        intro name' body' hname' hbody'
        rw [hv'.eq_of_declared hco' (hadv'.declares hd) hname',
          hadv'.productBody? hd.declared hbody] at hbody'
        rw [← Option.some.inj hbody', hparent]
        rfl
      have hkeep := keepsDeclared_bindParent _ _ s htied hwhole
      refine ⟨⟨hadv'.trans hkeep.advances, hco'.bindParent htied hwhole⟩, ?_⟩
      exact hv'.of_le (fun a ha => lt_size_of_le hadv'.le (hargs_lt a ha)) hkeep.advances.le
  | sum =>
    refine gives_variantWith_sum (hco.declOf?_self hd.declared) hd hE hself hfound
      fun hnew _ _ => ?_
    have hmade := made_enterWith (.sum parts) hco hd hargs_lt hnew hparts hwhole
      fun hbody => by rw [hnone hbody]; rfl
    generalize enterWith d args (DeclKind.sum.shape name args) _ st = v at hmade ⊢
    obtain ⟨⟨hadv, hco'⟩, hv⟩ := hmade
    have hsum := hv.whole fun a ha => (hargs a ha).of_le hadv.le
    obtain ⟨hadv', hco''⟩ := endsWell_foldl_bindParent parts hco' hsum (by
      intro tag htag name' hname'
      rw [hadv.declared?] at hname'
      obtain ⟨body, hbody, hsome⟩ := hbound rfl tag htag name' hname'
      exact ⟨body, hadv.productBody? hname' hbody, hsome⟩)
    exact ⟨⟨hadv.trans hadv', hco''⟩, hv.of_le
      (fun a ha => lt_size_of_le hadv.le (hargs_lt a ha)) hadv'.le⟩

/-- The number of arguments and the depth are those that making an instance needs. -/
def Suffices (depth : Nat) (k : DeclKind) (params args : List TypeId) (st : Store) : Prop :=
  params.length = args.length ∧ 2 * (st.pending args).card + leastDepth k ≤ depth

/-- Making instances to a given depth goes well: at arguments without the error type it advances the
store, keeps it coherent, and gives a type of the right shape.  Where it is refused, the number of
arguments or the depth did not suffice. -/
def InstancesWithin (depth : Nat) (args : List TypeId) : Prop :=
  ∀ ⦃st : Store⦄ ⦃name : Name⦄ ⦃d : TypeId⦄ ⦃k : DeclKind⦄ ⦃params : List TypeId⦄
    ⦃E : Store → Prop⦄, st.Coherent → st.Declares name d k params → (∀ a ∈ args, st.Whole a) →
    (¬ Suffices depth k params args st → ∀ st', EndsWell st st' → E st') →
      Gives (instantiateWithin depth d args) st E (Made name k args st)

/-- Parts that an instance of a declaration can be made from.  A declaration without a body has no
parts, and a part that is itself declared is tied to its sum already. -/
structure PartsFit (st : Store) (d : TypeId) (k : DeclKind) (parts : List TypeId) : Prop where
  lt_size : ∀ c ∈ parts, c < st.size
  faultless : st.Faultless → ∀ c ∈ parts, (st.tree c).Faultless
  eq_nil : st.nominals.bodies[d]? = none → parts = []
  tied : k = .sum → ∀ tag ∈ parts, ∀ name, st.declared? name = some tag →
    ∃ body, st.productBody? tag = some body ∧ body.parent.isSome = true

theorem mem_fields (hco : st.Coherent) {f : TypeId}
    (hf : f ∈ ((st.productBody? d).map (·.fields)).getD []) :
    f < st.size ∧ (st.Faultless → (st.tree f).Faultless) := by
  cases hb : st.productBody? d with
  | none => simp [hb] at hf
  | some body =>
    have hmem : f ∈ (Body.product body).parts := List.mem_append_left _ (by simpa [hb] using hf)
    have hbody := productBody?_eq_some.mp hb
    exact ⟨(hco.bodies hbody).2 f hmem, fun hst => (hst d _ hbody f hmem).2⟩

/-- Copies of the fields of a product at the arguments. -/
theorem partsFit_fields {st' : Store} {parts : List TypeId} (hco : st.Coherent)
    (hargs : ∀ a ∈ args, st.Whole a) (hle : st ≤ st') (hnom : st'.nominals = st.nominals)
    (hread : List.Forall₂ (fun f p => p < st'.size ∧
      st'.tree p = (st.tree f).subst (assign var (st.idents params) (args.map st.tree)))
      (((st.productBody? d).map (·.fields)).getD []) parts) : PartsFit st' d .product parts where
  lt_size c hc := by
    obtain ⟨f, -, hlt, -⟩ := exists_mem_of_forall₂ hread hc
    exact hlt
  faultless hst' c hc := by
    have hst := hst'.of_ge hco hle (by rw [hnom])
    obtain ⟨f, hf, -, htree⟩ := exists_mem_of_forall₂ hread hc
    rw [htree]
    exact ((mem_fields hco hf).2 hst).assign _ (List.forall_mem_map.mpr fun a ha => (hargs a ha).2)
  eq_nil hnone := by
    have hbody : st.productBody? d = none := by
      rw [hnom] at hnone
      rw [productBody?, hnone]
    rw [hbody] at hread
    exact List.forall₂_nil_left_iff.mp hread
  tied h := by cases h

/-- Instances of the tags of a sum. -/
theorem partsFit_tags {st' : Store} {parts : List TypeId}
    (hd : st.Declares name d .sum params) (hends : EndsWell st st')
    (hmade : List.Forall₂ (fun _ part => st'.Whole part ∧ ∀ name, st'.declared? name = some part →
      ∃ body, st'.productBody? part = some body ∧ body.parent.isSome = true)
      ((st.sumTags? d).getD []) parts) : PartsFit st' d .sum parts where
  lt_size c hc := by
    obtain ⟨t, -, hwhole, -⟩ := exists_mem_of_forall₂ hmade hc
    exact hwhole.1
  faultless _ c hc := by
    obtain ⟨t, -, hwhole, -⟩ := exists_mem_of_forall₂ hmade hc
    exact hwhole.2
  eq_nil hnone := by
    have htags : st.sumTags? d = none := by
      cases ht : st.sumTags? d with
      | none => rfl
      | some tags =>
        rw [hends.1.bodies hd.declared (sumTags?_eq_some.mp ht)] at hnone
        cases hnone
    rw [htags] at hmade
    exact List.forall₂_nil_left_iff.mp hmade
  tied _ part hpart := by
    obtain ⟨t, -, -, h⟩ := exists_mem_of_forall₂ hmade hpart
    exact h

section Within

variable {depth : Nat} {E : Store → Prop} (ih : InstancesWithin depth args) (hco : st.Coherent)
  (hd : st.Declares name d k params) (hargs : ∀ a ∈ args, st.Whole a)
  (hE : ¬ Suffices (depth + 1) k params args st → ∀ st', EndsWell st st' → E st')
include ih hd hargs hE

/-- An instance that is not there yet is made from its parts.  For a tag the sum follows, and as the
instance is entered then, fewer are left to be made. -/
theorem InstancesWithin.gives_variantWith {parts : List TypeId} {st' : Store}
    (hnew : st.nominals.variants[(d, args)]? = none) (hends : EndsWell st st')
    (hparts : PartsFit st' d k parts) :
    Gives (variantWith (instantiateWithin depth) d parts args) st' E (Made name k args st) := by
  obtain ⟨hadv, hco'⟩ := hends
  have hargs' : ∀ a ∈ args, st'.Whole a := fun a ha => (hargs a ha).of_le hadv.le
  refine (DeclM.gives_variantWith hco' (hadv.declares hd) hargs' hparts.lt_size hparts.faultless
    hparts.eq_nil hparts.tied (fun hlen => hE (fun h => hlen h.1) st' ⟨hadv, hco'⟩) ?_).mono
    (fun _ h => h) ?_
  · rintro rfl sumName sum st₂ hends hentered hsum
    have hadv₂ := hadv.trans hends.1
    refine ih hends.2 hsum (fun a ha => (hargs' a ha).of_le hends.1.le) fun hshort st₃ hends₃ =>
      hE (fun h => hshort ⟨h.1, ?_⟩) st₃ ⟨hadv₂.trans hends₃.1, hends₃.2⟩
    obtain ⟨v, hv⟩ := Option.ne_none_iff_exists'.mp hentered
    have hcard := card_pending_lt hadv₂.declared hadv₂.variants hd.declared hnew hv
    have hdepth := h.2
    simp only [leastDepth] at hdepth ⊢
    omega
  · exact fun v st₂ h => ⟨⟨hadv.trans h.1.1, h.1.2⟩, h.2⟩

include hco

/-- The tags of a sum are made.  A made tag that is declared is the declared tag, which is tied to its
sum. -/
theorem InstancesWithin.gives_tags (hk : k = .sum) :
    Gives (((st.sumTags? d).getD []).mapM fun tag => instantiateWithin depth tag args) st E
      fun parts st' => EndsWell st st' ∧ PartsFit st' d k parts := by
  subst hk
  have htag : ∀ tag ∈ (st.sumTags? d).getD [], ∃ tagName body,
      st.Declares tagName tag .product params ∧ st.productBody? tag = some body ∧
        body.parent.isSome = true := by
    intro tag hmem
    cases ht : st.sumTags? d with
    | none => simp [ht] at hmem
    | some tags =>
      obtain ⟨tagName, body, hdecl, hbody, hp⟩ := hco.tags hd ht (by simpa [ht] using hmem)
      exact ⟨tagName, body, hdecl, hbody, by rw [hp]; rfl⟩
  have hloop := gives_mapM ((st.sumTags? d).getD []) st (E := E)
    (f := fun tag => instantiateWithin depth tag args) (I := fun st' => EndsWell st st')
    (P := fun _ part st' => st'.Whole part ∧ ∀ name, st'.declared? name = some part →
      ∃ body, st'.productBody? part = some body ∧ body.parent.isSome = true)
    ⟨.refl st, hco⟩ ?_ ?_
  · exact hloop.mono (fun _ h => h) fun parts st' h => ⟨h.2.1, partsFit_tags hd h.2.1 h.2.2⟩
  · rintro _ part st₁ st₂ hadv ⟨hwhole, h⟩
    refine ⟨hwhole.of_le hadv.le, fun name' hname' => ?_⟩
    rw [hadv.declared?] at hname'
    obtain ⟨body, hbody, hsome⟩ := h name' hname'
    exact ⟨body, hadv.productBody? hname' hbody, hsome⟩
  · rintro tag hmem st' _ ⟨hadv, hco'⟩
    obtain ⟨tagName, body, hdecl, hbody, hsome⟩ := htag tag hmem
    have hcard : (st'.pending args).card ≤ (st.pending args).card :=
      Finset.card_le_card (pending_subset hadv.declared hadv.variants)
    refine (ih hco' (hadv.declares hdecl) (fun a ha => (hargs a ha).of_le hadv.le) ?_).mono
      (fun _ h => h) ?_
    · refine fun hshort st₂ hends => hE (fun h => hshort ⟨h.1, ?_⟩) st₂
        ⟨hadv.trans hends.1, hends.2⟩
      have hdepth := h.2
      simp only [leastDepth] at hdepth ⊢
      omega
    · rintro part st₂ ⟨⟨hadv₂, hco₂⟩, hpart⟩
      have hadv' := hadv.trans hadv₂
      refine ⟨hadv₂, ⟨hadv', hco₂⟩, hpart.whole fun a ha => (hargs a ha).of_le hadv'.le,
        fun name' hname' => ?_⟩
      rw [hpart.eq_of_declared hco₂ (hadv'.declares hdecl) hname']
      exact ⟨body, hadv'.productBody? hdecl.declared hbody, hsome⟩

end Within

theorem instancesWithin (depth : Nat) (args : List TypeId) : InstancesWithin depth args := by
  induction depth with
  | zero =>
    intro st name d k params E hco hd hargs hE
    refine gives_throw (hE (fun h => ?_) st ⟨.refl st, hco⟩)
    have hdepth := h.2
    cases k <;> simp [leastDepth] at hdepth
  | succ depth ih =>
    intro st name d k params E hco hd hargs hE
    refine gives_instantiateWithin_succ (hco.declOf?_self hd.declared) hd
      (fun hlen => hE (fun h => hlen h.1) st ⟨.refl st, hco⟩)
      (fun h => ⟨⟨.refl st, hco⟩, h ▸ hd.isInstance hco⟩) (fun _ w hw => ?_) ?_ ?_
    · obtain ⟨hlt, -, hshape⟩ := hco.variants hw
      exact ⟨⟨.refl st, hco⟩, hlt, hshape _ _ _ hd⟩
    · rintro rfl - - hnew
      obtain ⟨-, k', params', hdecl, hvars⟩ := hco.declares hd.declared
      obtain ⟨-, rfl, rfl⟩ := hd.unique hdecl
      refine (gives_substituteEach hvars (fun a ha => (hargs a ha).1)
        fun f hf => (mem_fields hco hf).1).mono (fun _ h => h) ?_
      rintro parts st' ⟨⟨hle, hnom⟩, hread, -⟩
      exact ih.gives_variantWith hd hargs hE hnew
        ⟨.of_nominals hle hnom, hco.of_nominals hle hnom⟩ (partsFit_fields hco hargs hle hnom hread)
    · rintro hk - - hnew
      exact (ih.gives_tags hco hd hargs hE hk).mono (fun _ h => h) fun parts st' h =>
        ih.gives_variantWith hd hargs hE hnew h.1 h.2

/-- Whatever the depth, making an instance at arguments without the error type advances the store
and keeps it coherent. -/
theorem gives_instantiateWithin (depth : Nat) (hco : st.Coherent)
    (hd : st.Declares name d k params) (hargs : ∀ a ∈ args, st.Whole a) :
    Gives (instantiateWithin depth d args) st (EndsWell st) (Made name k args st) :=
  instancesWithin depth args hco hd hargs fun _ _ h => h

theorem gives_instantiate (hco : st.Coherent) (hd : st.Declares name d k params)
    (hargs : ∀ a ∈ args, st.Whole a) :
    Gives (instantiate d args) st (EndsWell st) (Made name k args st) :=
  gives_get_bind (gives_instantiateWithin _ hco hd hargs)

/-- The depth of an instance is never too small. -/
theorem suffices_instantiationDepth (hco : st.Coherent) (hlen : params.length = args.length) :
    Suffices (instantiationDepth st) k params args st := by
  refine ⟨hlen, ?_⟩
  have hcard := hco.card_pending_le args
  unfold instantiationDepth
  cases k <;> simp only [leastDepth] <;> omega

/-- The instance of a declaration at as many arguments as it takes is always made. -/
theorem gives_instantiate_of_length (hco : st.Coherent) (hd : st.Declares name d k params)
    (hargs : ∀ a ∈ args, st.Whole a) (hlen : params.length = args.length) :
    Gives (instantiate d args) st (fun _ => False) (Made name k args st) :=
  gives_get_bind (instancesWithin _ args hco hd hargs fun hshort =>
    absurd (suffices_instantiationDepth hco hlen) hshort)

end DeclM

end ConstraintTyping
