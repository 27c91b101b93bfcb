import ConstraintTyping.Proofs.Types.Instances
import ConstraintTyping.Proofs.Types.Variables

/-!
# Declaring types and giving them bodies

A type is declared by name first and gets its body later.  Declaring happens in a store without bodies
and instances.  When bodies are given, types that wait for theirs are already in use: instances of
them are made, and the sum of a tag is not known yet.  A type that waits can get an empty body that
way, and then the one it is given is refused.  The store stays coherent all along, and when no type is
left waiting, every declaration has a body, whatever was refused.
-/

namespace ConstraintTyping

open TypeTree

section Refusable

variable {ε β : Type} {st : Store} {E : Store → Prop} {S : β → Store → Prop}

/-- A condition is checked: if it holds, the computation is refused. -/
theorem StoreM.gives_refuse_bind {c : Prop} [Decidable c] {e : ε} {k : PUnit → ExceptT ε StoreM β}
    (hE : c → E st) (h : ¬ c → Gives (k ⟨⟩) st E S) :
    Gives (if c then throw e >>= k else k ⟨⟩) st E S := by
  split
  · next hc => exact Gives.bind (Q := fun _ _ => False) (gives_throw (hE hc)) fun _ _ h => h.elim
  · next hc => exact h hc

theorem StoreM.gives_modify {g : Store → Store} {S : PUnit → Store → Prop} (h : S ⟨⟩ (g st)) :
    Gives (modify g : ExceptT ε StoreM PUnit) st E S :=
  .inl ⟨⟨⟩, g st, rfl, h⟩

end Refusable

/-- The kind of types that a body belongs to. -/
def Body.declKind : Body → DeclKind
  | .product _ => .product
  | .sum _ => .sum

namespace Store

variable {st st' : Store} {d sum tag : TypeId} {names : List TypeId} {k : DeclKind}
  {params : List TypeId}

/-! ## Declaring -/

/-- A store in which given types are declared, each once, and nothing is made of them yet. -/
structure Declaring (st : Store) (declared : List TypeId) : Prop where
  coherent : st.Coherent
  traced : st.Traced
  variants : ∀ key : TypeId × List TypeId, st.nominals.variants[key]? = none
  bodies : ∀ ty : TypeId, st.nominals.bodies[ty]? = none
  nodup : declared.Nodup
  mem_iff : ∀ {d : TypeId}, d ∈ declared ↔ ∃ name, st.declared? name = some d

theorem declaring_new : Store.new.Declaring [] where
  coherent := coherent_new
  traced := traced_new
  variants := by simp [Store.new]
  bodies := by simp [Store.new]
  nodup := List.nodup_nil
  mem_iff := by simp [declared?_new]

theorem Declaring.of_nominals {declared : List TypeId} (h : st.Declaring declared) (hle : st ≤ st')
    (hnom : st'.nominals = st.nominals) : st'.Declaring declared where
  coherent := h.coherent.of_nominals hle hnom
  traced := (Advances.of_nominals hle hnom).traced h.traced
  variants key := by rw [hnom]; exact h.variants key
  bodies ty := by rw [hnom]; exact h.bodies ty
  nodup := h.nodup
  mem_iff := by
    intro d
    rw [h.mem_iff]
    simp only [declared?, hnom]

/-- Types are added, and what is declared stays declared. -/
structure DeclaresMore (st st' : Store) : Prop where
  le : st ≤ st'
  declares : ∀ {name : Name} {d : TypeId} {k : DeclKind} {params : List TypeId},
    st.Declares name d k params → st'.Declares name d k params

theorem DeclaresMore.refl (st : Store) : st.DeclaresMore st := ⟨le_rfl, fun h => h⟩

theorem DeclaresMore.trans {st'' : Store} (h : st.DeclaresMore st') (h' : st'.DeclaresMore st'') :
    st.DeclaresMore st'' :=
  ⟨h.le.trans h'.le, fun hd => h'.declares (h.declares hd)⟩

theorem Advances.declaresMore (h : st.Advances st') : st.DeclaresMore st' :=
  ⟨h.le, fun hd => h.declares hd⟩

/-- Parameters are the variables of given names. -/
def Names (st : Store) (names : List Name) (params : List TypeId) : Prop :=
  List.Forall₂ (fun n p => st.shape p = .var (.named n)) names params

theorem Names.of_le {names : List Name} (h : st.Names names params) (hle : st ≤ st') :
    st'.Names names params :=
  h.imp fun _ _ hp => (shape_of_le hle (lt_size_of_shape_var hp)).trans hp

theorem Names.isVar {names : List Name} (h : st.Names names params) :
    ∀ p ∈ params, st.isVar p = true := fun p hp => by
  obtain ⟨n, -, hn⟩ := exists_mem_of_forall₂ h hp
  rw [Store.isVar, hn]
  rfl

/-- There is one variable of each name. -/
theorem Names.unique {names : List Name} {params' : List TypeId} (h : st.Names names params)
    (h' : st.Names names params') : params = params' := by
  induction h generalizing params' with
  | nil => cases h'; rfl
  | cons hp _ ih =>
    cases h' with
    | cons hp' hrest => rw [eq_of_shape_var hp hp', ih hrest]

/-- A store after a new declaration. -/
def declare (st : Store) (name : Name) (d : TypeId) : Store :=
  { st with
    nominals.declared := st.nominals.declared.insert name d
    nominals.declOf := st.nominals.declOf.insert d d }

theorem declared?_declare (st : Store) (name name' : Name) (d : TypeId) :
    (st.declare name d).declared? name' = if name = name' then some d else st.declared? name' := by
  simp [declare, declared?, Std.HashMap.getElem?_insert]

theorem declOf_declare (st : Store) (name : Name) (d ty : TypeId) :
    (st.declare name d).nominals.declOf[ty]? =
      if d = ty then some d else st.nominals.declOf[ty]? := by
  simp [declare, Std.HashMap.getElem?_insert]

/-- Declaring a product or sum over variables under a name that is not taken. -/
theorem Declaring.declare {declared : List TypeId} {name : Name} (h : st.Declaring declared)
    (hnew : st.declared? name = none) (hshape : st.shape d = k.shape name params)
    (hvars : ∀ p ∈ params, st.isVar p = true) (hd : d < st.size) :
    (st.declare name d).Declaring (declared ++ [d]) where
  coherent := by
    constructor
    · intro name' d' hd'
      rw [declared?_declare] at hd'
      split at hd'
      · next heq =>
        obtain rfl := Option.some.inj hd'
        subst heq
        refine ⟨by rw [declOf_declare, if_pos rfl], k, params, ⟨?_, hshape⟩, hvars⟩
        rw [declared?_declare, if_pos rfl]
      · next hne =>
        obtain ⟨hself, k', params', hdecl, hvars'⟩ := h.coherent.declares hd'
        refine ⟨?_, k', params', ⟨?_, hdecl.shape⟩, hvars'⟩
        · rw [declOf_declare]
          split
          · next heq => rw [heq]
          · exact hself
        · rw [declared?_declare, if_neg hne]
          exact hdecl.declared
    · intro d' args v hv
      exact absurd hv (by rw [Store.declare, h.variants]; simp)
    · intro ty b hb
      exact absurd hb (by rw [Store.declare, h.bodies]; simp)
    · intro name' d' params' body sum _ hb
      rw [productBody?_eq_some] at hb
      exact absurd hb (by rw [Store.declare, h.bodies]; simp)
    · intro name' sum params' tags tag _ hb
      rw [sumTags?_eq_some] at hb
      exact absurd hb (by rw [Store.declare, h.bodies]; simp)
  traced := by
    intro ty d' hd'
    rw [declOf_declare] at hd'
    split at hd'
    · next heq =>
      obtain rfl := Option.some.inj hd'
      exact ⟨heq ▸ hd, .inr ⟨name, by rw [declared?_declare, if_pos rfl]⟩⟩
    · obtain ⟨hlt, hkind⟩ := h.traced hd'
      refine ⟨hlt, hkind.imp_right fun ⟨name', hname'⟩ => ⟨name', ?_⟩⟩
      have hne : name ≠ name' := by
        rintro rfl
        rw [hnew] at hname'
        cases hname'
      rw [declared?_declare, if_neg hne]
      exact hname'
  variants := h.variants
  bodies := h.bodies
  nodup := by
    refine List.nodup_append.mpr ⟨h.nodup, List.nodup_singleton d, ?_⟩
    rintro d' hd' _ hmem rfl
    rw [List.mem_singleton.mp hmem] at hd'
    -- a type of that shape could only be declared under the new name
    obtain ⟨name', hname'⟩ := h.mem_iff.mp hd'
    obtain ⟨-, k', params', hdecl, -⟩ := h.coherent.declares hname'
    obtain ⟨-, rfl, -⟩ := DeclKind.shape_inj (hshape.symm.trans hdecl.shape)
    rw [hnew] at hname'
    cases hname'
  mem_iff := by
    intro d'
    simp only [List.mem_append, List.mem_singleton, declared?_declare]
    constructor
    · rintro (hd' | rfl)
      · obtain ⟨name', hname'⟩ := h.mem_iff.mp hd'
        refine ⟨name', ?_⟩
        rw [if_neg]
        · exact hname'
        · rintro rfl
          rw [hnew] at hname'
          cases hname'
      · exact ⟨name, if_pos rfl⟩
    · rintro ⟨name', hname'⟩
      split at hname'
      · exact .inr (Option.some.inj hname').symm
      · exact .inl (h.mem_iff.mpr ⟨name', hname'⟩)

theorem declaresMore_declare {name : Name} (hnew : st.declared? name = none) :
    st.DeclaresMore (st.declare name d) where
  le := le_refl st
  declares {name' d' k params} hd := by
    refine ⟨?_, hd.shape⟩
    rw [declared?_declare, if_neg]
    · exact hd.declared
    · rintro rfl
      have := hd.declared
      rw [hnew] at this
      cases this

end Store

namespace DeclM

open Store StoreM

variable {st : Store} {declared : List TypeId}

theorem gives_namedVars {ε : Type} {E : Store → Prop} (params : List Name) (st : Store) :
    Gives (params.mapM fun p => (liftM (namedVar p) : ExceptT ε StoreM TypeId)) st E
      fun vs st' => (st ≤ st' ∧ st'.nominals = st.nominals) ∧ st'.Names params vs := by
  refine (gives_mapM params st (I := fun st' => st ≤ st' ∧ st'.nominals = st.nominals)
    (P := fun p v st' => st'.shape v = .var (.named p)) ⟨le_rfl, rfl⟩ ?_ ?_).mono
      (fun _ h => h) fun vs st' h => h.2
  · intro p v st₁ st₂ hadv h
    exact (shape_of_le hadv.le (lt_size_of_shape_var h)).trans h
  · rintro p - st' - ⟨hle, hnom⟩
    have hbuilds := builds_intern (.var (.named p)) st'
    exact gives_lift ⟨.of_nominals hbuilds.1 hbuilds.2,
      ⟨le_trans hle hbuilds.1, hbuilds.2.trans hnom⟩, shape_namedVar p st'⟩

/-- The ways in which a declaration goes: a name that is taken is refused, and otherwise a type over
variables of the names of the parameters is built and declared. -/
theorem gives_declare_of {E : Store → Prop} {Q : TypeId → Store → Prop} (kind : DeclKind)
    (name : Name) (params : List Name) (hE : st.declared? name ≠ none → E st)
    (hQ : ∀ st₁ d vars, st ≤ st₁ → st₁.nominals = st.nominals → st.declared? name = none →
      d < st₁.size → st₁.shape d = kind.shape name vars → st₁.Names params vars →
        Q d (st₁.declare name d)) :
    Gives (declare kind name params) st E Q := by
  refine gives_get_bind ?_
  split
  · next htaken => exact gives_throw (hE (by simpa [declared?] using htaken))
  next hnew =>
  refine (gives_namedVars params st).bind fun args st₁ hnamed => ?_
  obtain ⟨⟨hle, hnom⟩, hargs⟩ := hnamed
  have hvar : ∀ a ∈ args, ∃ n, st₁.shape a = .var (.named n) := fun a ha => by
    obtain ⟨n, -, hn⟩ := exists_mem_of_forall₂ hargs ha
    exact ⟨n, hn⟩
  have hbuilds := builds_intern (kind.shape name args) st₁
  have hbelow : ∀ c ∈ (kind.shape name args).children, c < st₁.size := by
    intro c hc
    obtain ⟨n, hn⟩ := hvar c (by simpa using hc)
    exact lt_size_of_shape_var hn
  have hbare : args.map st₁.bare = args := by
    refine (List.map_congr_left fun a ha => ?_).trans (List.map_id _)
    obtain ⟨n, hn⟩ := hvar a ha
    exact bare_of_not_qualified (by rw [hn]; rfl)
  have hspec := (yields_intern (DeclKind.isQualified_shape kind name args) hbelow).result
  rw [DeclKind.map_shape, hbare] at hspec
  refine Gives.bind (Q := fun d st₂ => st₁ ≤ st₂ ∧ st₂.nominals = st₁.nominals ∧
    d < st₂.size ∧ st₂.shape d = kind.shape name args)
    (gives_lift ⟨hbuilds.1, hbuilds.2, hspec⟩) fun d st₂ hbuilt => ?_
  obtain ⟨hle₂, hnom₂, hd, hshape⟩ := hbuilt
  refine gives_modify_bind (gives_pure (hQ st₂ d args (le_trans hle hle₂) (hnom₂.trans hnom) ?_ hd
    hshape (hargs.of_le hle₂)))
  simpa [declared?] using hnew

/-- A declaration of a name that is taken is refused and nothing happens, or its type joins the
declared ones. -/
theorem gives_declare (kind : DeclKind) (name : Name) (params : List Name)
    (h : st.Declaring declared) :
    Gives (declare kind name params) st (fun st' => st' = st ∧ st.declared? name ≠ none)
      fun d st' => st'.Declaring (declared ++ [d]) ∧ st.DeclaresMore st' ∧
        ∃ vars, st'.Declares name d kind vars ∧ st'.Names params vars := by
  refine gives_declare_of kind name params (fun htaken => ⟨rfl, htaken⟩) ?_
  intro st₁ d vars hle hnom hnew hd hshape hvars
  have hadv : st.Advances st₁ := .of_nominals hle hnom
  have hfree : st₁.declared? name = none := (hadv.declared? name).trans hnew
  exact ⟨(h.of_nominals hle hnom).declare hfree hshape hvars.isVar hd,
    hadv.declaresMore.trans (declaresMore_declare (d := d) hfree), vars,
    ⟨(declared?_declare st₁ name name d).trans (if_pos rfl), hshape⟩, hvars⟩

end DeclM

/-! ## Giving bodies -/

namespace Store

variable {st st' : Store} {ty sum tag : TypeId} {waiting waiting' tags : List TypeId}
  {params : List TypeId} {sumName : Name}

/-- A store in which types get their bodies.  Those that wait for theirs have none, or an empty
one. -/
structure Defining (st : Store) (waiting : List TypeId) : Prop where
  coherent : st.Coherent
  traced : st.Traced
  nodup : waiting.Nodup
  waits : ∀ {name : Name} {d : TypeId} {k : DeclKind} {params : List TypeId} {b : Body},
    st.Declares name d k params → d ∈ waiting → st.nominals.bodies[d]? = some b → b = k.emptyBody
  product : ∀ {name : Name} {d : TypeId} {params : List TypeId},
    st.Declares name d .product params → d ∉ waiting →
      ∃ body, st.productBody? d = some body ∧ body.fieldNames.length = body.fields.length
  sum : ∀ {name : Name} {d : TypeId} {params : List TypeId},
    st.Declares name d .sum params → d ∉ waiting → ∃ tags, st.sumTags? d = some tags

theorem Declaring.defining (h : st.Declaring waiting) : st.Defining waiting where
  coherent := h.coherent
  traced := h.traced
  nodup := h.nodup
  waits _ _ hb := by rw [h.bodies] at hb; cases hb
  product hd hnot := absurd (h.mem_iff.mpr ⟨_, hd.declared⟩) hnot
  sum hd hnot := absurd (h.mem_iff.mpr ⟨_, hd.declared⟩) hnot

theorem Defining.perm (h : st.Defining waiting) (hperm : waiting.Perm waiting') :
    st.Defining waiting' where
  coherent := h.coherent
  traced := h.traced
  nodup := hperm.nodup_iff.mp h.nodup
  waits hd hmem := h.waits hd (hperm.mem_iff.mpr hmem)
  product hd hnot := h.product hd fun hmem => hnot (hperm.mem_iff.mp hmem)
  sum hd hnot := h.sum hd fun hmem => hnot (hperm.mem_iff.mp hmem)

/-- When no type waits, all have their bodies. -/
theorem Defining.complete (h : st.Defining []) : st.Complete where
  product hd := by
    obtain ⟨body, hbody, -⟩ := h.product hd List.not_mem_nil
    exact ⟨body, hbody⟩
  sum hd := h.sum hd List.not_mem_nil
  names hd hbody := by
    obtain ⟨body', hbody', hlen⟩ := h.product hd List.not_mem_nil
    rw [hbody] at hbody'
    rw [Option.some.inj hbody']
    exact hlen

theorem Defining.of_endsWell (h : st.Defining waiting) (hends : DeclM.EndsWell st st') :
    st'.Defining waiting where
  coherent := hends.2
  traced := hends.1.traced h.traced
  nodup := h.nodup
  waits {name d k params b} hd hmem hb := by
    have hd := hends.1.declares_of h.coherent hd
    cases hold : st.nominals.bodies[d]? with
    | none => exact hends.1.late hd hold hb
    | some b' =>
      rw [hends.1.bodies hd.declared hold] at hb
      exact Option.some.inj hb ▸ h.waits hd hmem hold
  product hd hnot := by
    have hd := hends.1.declares_of h.coherent hd
    obtain ⟨body, hbody, hlen⟩ := h.product hd hnot
    exact ⟨body, hends.1.productBody? hd.declared hbody, hlen⟩
  sum hd hnot := by
    have hd := hends.1.declares_of h.coherent hd
    obtain ⟨tags, htags⟩ := h.sum hd hnot
    exact ⟨tags, hends.1.sumTags? hd.declared htags⟩

/-- A type that has a body need not wait. -/
theorem Defining.settled {b : Body} (h : st.Defining (ty :: waiting))
    (hb : st.nominals.bodies[ty]? = some b) : st.Defining waiting where
  coherent := h.coherent
  traced := h.traced
  nodup := (List.nodup_cons.mp h.nodup).2
  waits hd hmem := h.waits hd (List.mem_cons_of_mem ty hmem)
  product {name d params} hd hnot := by
    by_cases heq : d = ty
    · subst heq
      rw [h.waits hd List.mem_cons_self hb] at hb
      exact ⟨_, productBody?_eq_some.mpr hb, rfl⟩
    · exact h.product hd (by simp [heq, hnot])
  sum {name d params} hd hnot := by
    by_cases heq : d = ty
    · subst heq
      rw [h.waits hd List.mem_cons_self hb] at hb
      exact ⟨_, sumTags?_eq_some.mpr hb⟩
    · exact h.sum hd (by simp [heq, hnot])

/-- A declared type is its own declaration. -/
theorem Coherent.isDeclaration {name : Name} {k : DeclKind} (hco : st.Coherent)
    (hd : st.Declares name ty k params) : st.isDeclaration ty = true :=
  beq_iff_eq.mpr (hco.declares hd.declared).1

/-- A declaration is over variables, so the error type is not in it. -/
theorem Coherent.whole {name : Name} {k : DeclKind} (hco : st.Coherent)
    (hd : st.Declares name ty k params) : st.Whole ty := by
  obtain ⟨-, k', params', hd', hvars⟩ := hco.declares hd.declared
  obtain ⟨-, rfl, rfl⟩ := hd.unique hd'
  refine (hd.isInstance hco).whole fun p hp => ⟨hd.params_lt p hp, ?_⟩
  obtain ⟨x, hx⟩ := Shape.isVar_iff.mp (hvars p hp)
  rw [tree_of_var hx]
  exact faultless_var x

/-- A product declared over given parameters has a body and is not tied to a sum yet. -/
def Untied (st : Store) (params : List TypeId) (tag : TypeId) : Prop :=
  ∃ name body, st.Declares name tag .product params ∧ st.productBody? tag = some body ∧
    body.parent = none

/-- A declared product that is tied to a sum over the same parameters. -/
def Tied (st : Store) (sum : TypeId) (params : List TypeId) (tag : TypeId) : Prop :=
  ∃ name body, st.Declares name tag .product params ∧ st.productBody? tag = some body ∧
    body.parent = some sum

theorem Untied.of_advances (h : st.Untied params tag) (hadv : st.Advances st') :
    st'.Untied params tag := by
  obtain ⟨name, body, hd, hbody, hparent⟩ := h
  exact ⟨name, body, hadv.declares hd, hadv.productBody? hd.declared hbody, hparent⟩

theorem SameButBodies.trans {st'' : Store} (h : SameButBodies st st')
    (h' : SameButBodies st' st'') : SameButBodies st st'' where
  table := h'.table.trans h.table
  declared := h'.declared.trans h.declared
  declOf := h'.declOf.trans h.declOf
  variants := h'.variants.trans h.variants

theorem SameButBodies.declaresMore (h : SameButBodies st st') : st.DeclaresMore st' where
  le := by intro i n hn; rw [h.table]; exact hn
  declares hd := h.declares.mpr hd

/-- A body without the error type is given to a type. -/
theorem faultless_setBody {b : Body} (h : st.Faultless) (hb : ∀ c ∈ b.parts, st.Whole c) :
    (st.setBody ty b).Faultless := by
  refine (sameButBodies_setBody st ty b).faultless fun x b' hb' => ?_
  rw [bodies_setBody] at hb'
  split at hb'
  · exact Option.some.inj hb' ▸ hb
  · exact h x b' hb'

section SetBody

variable {b : Body} (hnone : st.nominals.bodies[ty]? = none)
include hnone

theorem productBody?_setBody {d : TypeId} {body : ProductBody} (h : st.productBody? d = some body) :
    (st.setBody ty b).productBody? d = some body := by
  rw [productBody?_eq_some] at h ⊢
  have hne : ty ≠ d := by
    rintro rfl
    rw [hnone] at h
    cases h
  rw [bodies_setBody, if_neg hne]
  exact h

theorem sumTags?_setBody {d : TypeId} {tags : List TypeId} (h : st.sumTags? d = some tags) :
    (st.setBody ty b).sumTags? d = some tags := by
  rw [sumTags?_eq_some] at h ⊢
  have hne : ty ≠ d := by
    rintro rfl
    rw [hnone] at h
    cases h
  rw [bodies_setBody, if_neg hne]
  exact h

theorem Untied.setBody (h : st.Untied params tag) : (st.setBody ty b).Untied params tag := by
  obtain ⟨name, body, hd, hbody, hparent⟩ := h
  exact ⟨name, body, (sameButBodies_setBody st ty b).declares.mpr hd,
    productBody?_setBody hnone hbody, hparent⟩

end SetBody

/-- A type that waited gets its body, which ties in with the others. -/
theorem Defining.setBody {b : Body} (h : st.Defining (ty :: waiting)) (hty : ty < st.size)
    (hnone : st.nominals.bodies[ty]? = none) (hparts : ∀ c ∈ b.parts, c < st.size)
    (hparent : ∀ body, b = .product body → body.parent = none ∧
      body.fieldNames.length = body.fields.length)
    (htags : ∀ tags, b = .sum tags → ∀ {name params}, st.Declares name ty .sum params →
      ∀ tag ∈ tags, st.Tied ty params tag)
    (hkind : ∀ {name k params}, st.Declares name ty k params → k = b.declKind) :
    (st.setBody ty b).Defining waiting := by
  obtain ⟨hty', hnodup⟩ := List.nodup_cons.mp h.nodup
  have hsame := sameButBodies_setBody st ty b
  have hself : (st.setBody ty b).nominals.bodies[ty]? = some b := by
    rw [bodies_setBody, if_pos rfl]
  have hcases : ∀ x b', (st.setBody ty b).nominals.bodies[x]? = some b' →
      (ty = x ∧ b' = b) ∨ st.nominals.bodies[x]? = some b' := by
    intro x b' hx
    rw [bodies_setBody] at hx
    split at hx
    · next heq => exact .inl ⟨heq, (Option.some.inj hx).symm⟩
    · exact .inr hx
  refine ⟨hsame.coherent h.coherent ?_ ?_ ?_, hsame.traced h.traced, hnodup, ?_, ?_, ?_⟩
  · intro x b' hx
    rcases hcases x b' hx with ⟨rfl, rfl⟩ | hx
    · exact ⟨hty, hparts⟩
    · exact h.coherent.bodies hx
  · intro name d params body sum hd hbody hp
    rcases hcases d _ (productBody?_eq_some.mp hbody) with ⟨rfl, heq⟩ | hbody
    · rw [(hparent body heq.symm).1] at hp
      cases hp
    · exact h.coherent.parent hd (productBody?_eq_some.mpr hbody) hp
  · intro name sum params tags tag hd hsum hmem
    have hties : st.Tied sum params tag := by
      rcases hcases sum _ (sumTags?_eq_some.mp hsum) with ⟨rfl, heq⟩ | hsum
      · exact htags tags heq.symm hd tag hmem
      · exact h.coherent.tags hd (sumTags?_eq_some.mpr hsum) hmem
    obtain ⟨tagName, body, htag, hbody, hp⟩ := hties
    exact ⟨tagName, body, htag, productBody?_setBody hnone hbody, hp⟩
  · intro name d k params b' hd hmem hb'
    rcases hcases d b' hb' with ⟨rfl, -⟩ | hb'
    · exact absurd hmem hty'
    · exact h.waits (hsame.declares.mp hd) (List.mem_cons_of_mem ty hmem) hb'
  · intro name d params hd hnot
    rw [hsame.declares] at hd
    by_cases heq : d = ty
    · subst heq
      cases b with
      | product body => exact ⟨body, productBody?_eq_some.mpr hself, (hparent body rfl).2⟩
      | sum tags => cases hkind hd
    · obtain ⟨body, hbody, hlen⟩ := h.product hd (by simp [heq, hnot])
      exact ⟨body, productBody?_setBody hnone hbody, hlen⟩
  · intro name d params hd hnot
    rw [hsame.declares] at hd
    by_cases heq : d = ty
    · subst heq
      cases b with
      | product body => cases hkind hd
      | sum tags => exact ⟨tags, sumTags?_eq_some.mpr hself⟩
    · obtain ⟨tags, htags⟩ := h.sum hd (by simp [heq, hnot])
      exact ⟨tags, sumTags?_setBody hnone htags⟩

/-- What tying a tag to its sum changes in the bodies of products: the parent of that tag. -/
theorem productBody?_bindParent {body : ProductBody} {d : TypeId}
    (h : (st.bindParent tag sum).productBody? d = some body) :
    ∃ old, st.productBody? d = some old ∧ body.fields = old.fields ∧
      body.fieldNames = old.fieldNames ∧
      body.parent = if tag = d then old.parent.or (some sum) else old.parent := by
  cases htag : st.productBody? tag with
  | none =>
    rw [bindParent_of_none htag] at h
    refine ⟨body, h, rfl, rfl, ?_⟩
    have hne : tag ≠ d := by
      rintro rfl
      rw [htag] at h
      cases h
    rw [if_neg hne]
  | some old =>
    rw [productBody?_eq_some, bodies_bindParent htag] at h
    split at h
    · next heq =>
      obtain rfl := Body.product.inj (Option.some.inj h)
      exact ⟨old, heq ▸ htag, rfl, rfl, (if_pos heq).symm⟩
    · next hne => exact ⟨body, productBody?_eq_some.mpr h, rfl, rfl, (if_neg hne).symm⟩

theorem exists_productBody?_bindParent {old : ProductBody} {d : TypeId} (tag sum : TypeId)
    (h : st.productBody? d = some old) :
    ∃ body, (st.bindParent tag sum).productBody? d = some body ∧ body.fields = old.fields ∧
      body.fieldNames = old.fieldNames ∧
      body.parent = if tag = d then old.parent.or (some sum) else old.parent := by
  have hsome : ∃ body, (st.bindParent tag sum).productBody? d = some body := by
    cases htag : st.productBody? tag with
    | none => exact ⟨old, by rw [bindParent_of_none htag]; exact h⟩
    | some t =>
      by_cases heq : tag = d
      · exact ⟨_, productBody?_eq_some.mpr (by rw [bodies_bindParent htag, if_pos heq])⟩
      · refine ⟨old, productBody?_eq_some.mpr ?_⟩
        rw [bodies_bindParent htag, if_neg heq]
        exact productBody?_eq_some.mp h
  obtain ⟨body, hbody⟩ := hsome
  obtain ⟨old', hold', hfields, hnames, hparent⟩ := productBody?_bindParent hbody
  rw [h] at hold'
  obtain rfl := Option.some.inj hold'
  exact ⟨body, hbody, hfields, hnames, hparent⟩

theorem sumTags?_bindParent (st : Store) (tag sum d : TypeId) :
    (st.bindParent tag sum).sumTags? d = st.sumTags? d := by
  cases htag : st.productBody? tag with
  | none => rw [bindParent_of_none htag]
  | some old =>
    unfold sumTags?
    rw [bodies_bindParent htag]
    by_cases heq : tag = d
    · rw [if_pos heq, ← heq, productBody?_eq_some.mp htag]
    · rw [if_neg heq]

/-- A product declared over given parameters that is not tied to another sum. -/
def FreeFor (st : Store) (sum : TypeId) (params : List TypeId) (tag : TypeId) : Prop :=
  ∃ name body, st.Declares name tag .product params ∧ st.productBody? tag = some body ∧
    (body.parent = none ∨ body.parent = some sum)

theorem Untied.freeFor (h : st.Untied params tag) (sum : TypeId) : st.FreeFor sum params tag := by
  obtain ⟨name, body, hd, hbody, hparent⟩ := h
  exact ⟨name, body, hd, hbody, .inl hparent⟩

/-- Tags are tied to a sum, which has no body yet. -/
structure Ties (sum : TypeId) (params : List TypeId) (st st' : Store) : Prop
    extends SameButBodies st st' where
  waits : st.nominals.bodies[sum]? = none → st'.nominals.bodies[sum]? = none
  free : ∀ {tag : TypeId}, st.FreeFor sum params tag → st'.FreeFor sum params tag
  tied : ∀ {tag : TypeId}, st.Tied sum params tag → st'.Tied sum params tag
  faultless : st.Faultless → st'.Faultless

theorem Ties.refl (sum : TypeId) (params : List TypeId) (st : Store) : Ties sum params st st where
  table := rfl
  declared := rfl
  declOf := rfl
  variants := rfl
  waits h := h
  free h := h
  tied h := h
  faultless h := h

theorem Ties.trans {st'' : Store} (h : Ties sum params st st') (h' : Ties sum params st' st'') :
    Ties sum params st st'' where
  toSameButBodies := h.toSameButBodies.trans h'.toSameButBodies
  waits hs := h'.waits (h.waits hs)
  free ht := h'.free (h.free ht)
  tied ht := h'.tied (h.tied ht)
  faultless hst := h'.faultless (h.faultless hst)

theorem ties_bindParent (tag : TypeId) (params : List TypeId) (hsum : st.Whole sum) :
    Ties sum params st (st.bindParent tag sum) where
  toSameButBodies := sameButBodies_bindParent st tag sum
  waits hs := by
    cases htag : st.productBody? tag with
    | none => rw [bindParent_of_none htag]; exact hs
    | some body =>
      have hne : tag ≠ sum := by
        rintro rfl
        rw [productBody?_eq_some, hs] at htag
        cases htag
      rw [bodies_bindParent htag, if_neg hne]
      exact hs
  free := by
    rintro tag' ⟨name, old, hd, hold, hp⟩
    obtain ⟨body, hbody, -, -, hp'⟩ := exists_productBody?_bindParent tag sum hold
    refine ⟨name, body, (sameButBodies_bindParent st tag sum).declares.mpr hd, hbody, ?_⟩
    rw [hp']
    split
    · rcases hp with hp | hp <;> rw [hp] <;> exact .inr rfl
    · exact hp
  tied := by
    rintro tag' ⟨name, old, hd, hold, hp⟩
    obtain ⟨body, hbody, -, -, hp'⟩ := exists_productBody?_bindParent tag sum hold
    refine ⟨name, body, (sameButBodies_bindParent st tag sum).declares.mpr hd, hbody, ?_⟩
    rw [hp', hp]
    split <;> rfl
  faultless := faultless_bindParent hsum

/-- A tag that is not tied to another sum is tied to its sum. -/
theorem Defining.bindParent {body : ProductBody} {tagName : Name} (h : st.Defining waiting)
    (htag : tag ∉ waiting)
    (hsum : st.Declares sumName sum .sum params) (hd : st.Declares tagName tag .product params)
    (hbody : st.productBody? tag = some body)
    (hparent : body.parent = none ∨ body.parent = some sum) :
    (st.bindParent tag sum).Defining waiting ∧ (st.bindParent tag sum).Tied sum params tag := by
  have hsame := sameButBodies_bindParent st tag sum
  have hor : body.parent.or (some sum) = some sum := by
    rcases hparent with hp | hp <;> rw [hp] <;> rfl
  refine ⟨⟨hsame.coherent h.coherent ?_ ?_ ?_, hsame.traced h.traced, h.nodup, ?_, ?_, ?_⟩, ?_⟩
  · intro x b hx
    rw [bodies_bindParent hbody] at hx
    split at hx
    · next heq =>
      obtain rfl := Option.some.inj hx
      obtain ⟨hlt, hparts⟩ := h.coherent.bodies (productBody?_eq_some.mp hbody)
      refine ⟨heq ▸ hlt, fun c hc => ?_⟩
      simp only [Body.parts, hor, Option.toList_some, List.mem_append, List.mem_singleton] at hc
      rcases hc with hc | rfl
      · exact hparts c (List.mem_append_left _ hc)
      · exact hsum.lt_size
    · exact h.coherent.bodies hx
  · intro name d params' body' sum' hd' hb hp
    obtain ⟨old, hold, -, -, hparent'⟩ := productBody?_bindParent hb
    rw [hp] at hparent'
    split at hparent'
    · next heq =>
      subst heq
      rw [hbody] at hold
      obtain rfl := Option.some.inj hold
      rw [hor] at hparent'
      obtain rfl := Option.some.inj hparent'
      obtain ⟨-, -, rfl⟩ := hd.unique_of_id hd'
      exact ⟨sumName, hsum⟩
    · exact h.coherent.parent hd' hold hparent'.symm
  · intro name sum' params' tags tag' hd' hs hmem
    rw [sumTags?_bindParent] at hs
    obtain ⟨tagName', old, htag', hold, hp⟩ := h.coherent.tags hd' hs hmem
    obtain ⟨body', hb', -, -, hp'⟩ := exists_productBody?_bindParent tag sum hold
    refine ⟨tagName', body', htag', hb', ?_⟩
    rw [hp', hp]
    split <;> rfl
  · intro name d k params' b hd' hmem hb
    have hne : tag ≠ d := by
      rintro rfl
      exact htag hmem
    rw [bodies_bindParent hbody, if_neg hne] at hb
    exact h.waits (hsame.declares.mp hd') hmem hb
  · intro name d params' hd' hnot
    obtain ⟨old, hold, hlen⟩ := h.product (hsame.declares.mp hd') hnot
    obtain ⟨body', hb', hfields, hnames, -⟩ :=
      exists_productBody?_bindParent tag sum hold
    exact ⟨body', hb', by rw [hfields, hnames]; exact hlen⟩
  · intro name d params' hd' hnot
    obtain ⟨tags, htags⟩ := h.sum (hsame.declares.mp hd') hnot
    exact ⟨tags, by rw [sumTags?_bindParent]; exact htags⟩
  · obtain ⟨body', hb', -, -, hp'⟩ := exists_productBody?_bindParent tag sum hbody
    refine ⟨tagName, body', hsame.declares.mpr hd, hb', ?_⟩
    rw [hp', if_pos rfl, hor]

/-- Several products are made tags of a sum. -/
def bindParents (st : Store) (sum : TypeId) (tags : List TypeId) : Store :=
  tags.foldl (fun st tag => st.bindParent tag sum) st

theorem bindParents_cons (st : Store) (sum tag : TypeId) (tags : List TypeId) :
    st.bindParents sum (tag :: tags) = (st.bindParent tag sum).bindParents sum tags := rfl

theorem sameButBodies_bindParents (st : Store) (sum : TypeId) (tags : List TypeId) :
    SameButBodies st (st.bindParents sum tags) := by
  induction tags generalizing st with
  | nil => exact ⟨rfl, rfl, rfl, rfl⟩
  | cons tag tags ih => exact (sameButBodies_bindParent st tag sum).trans (ih _)

theorem bodies_bindParents_of_not_mem {x : TypeId} {tags : List TypeId} (hx : x ∉ tags) :
    (st.bindParents sum tags).nominals.bodies[x]? = st.nominals.bodies[x]? := by
  induction tags generalizing st with
  | nil => rfl
  | cons tag tags ih =>
    rw [List.mem_cons, not_or] at hx
    rw [bindParents_cons, ih hx.2]
    cases htag : st.productBody? tag with
    | none => rw [bindParent_of_none htag]
    | some body => rw [bodies_bindParent htag, if_neg (Ne.symm hx.1)]

/-- Binding products to a sum gives each of them a parent, if it had none. -/
theorem productBody?_bindParents_of_some {body : ProductBody} {tags : List TypeId}
    (h : st.productBody? tag = some body) :
    (st.bindParents sum tags).productBody? tag = some { body with
      parent := if tag ∈ tags then body.parent.or (some sum) else body.parent } := by
  induction tags generalizing st body with
  | nil => exact h
  | cons t tags ih =>
    obtain ⟨body', hbody', hfields, hnames, hparent⟩ := exists_productBody?_bindParent t sum h
    rw [bindParents_cons, ih hbody', hfields, hnames, hparent]
    by_cases heq : t = tag
    · subst heq
      cases body.parent <;> simp
    · simp [heq, Ne.symm heq]

/-- A product that is bound to a sum has that parent, unless it had another. -/
theorem productBody?_bindParents {body : ProductBody} {tags : List TypeId}
    (h : st.productBody? tag = some body) (hmem : tag ∈ tags)
    (hparent : body.parent = none ∨ body.parent = some sum) :
    (st.bindParents sum tags).productBody? tag = some { body with parent := some sum } := by
  rw [productBody?_bindParents_of_some h, if_pos hmem]
  rcases hparent with hp | hp <;> rw [hp] <;> rfl

end Store

namespace DeclM

open Store StoreM

variable {st : Store} {ty sum : TypeId} {fields tags waiting waiting' params : List TypeId}
  {names : List (Option Name)} {sumName : Name}

/-- A product that waits gets its fields, or it keeps the empty body that it has. -/
theorem gives_defineProduct {name : Name} (h : st.Defining (ty :: waiting))
    (hd : st.Declares name ty .product params) (hfields : ∀ f ∈ fields, f < st.size)
    (hlen : names.length = fields.length) :
    let Q := fun st' => st'.Defining waiting ∧ SameButBodies st st' ∧ st'.Untied params ty ∧
      (∀ ps tag, st.Untied ps tag → st'.Untied ps tag) ∧
        (st.Faultless → (∀ f ∈ fields, st.Whole f) → st'.Faultless)
    Gives (defineProduct ty fields names) st Q fun _ => Q := by
  intro Q
  have hdecl : ¬ (decide (st.kind ty ≠ .product) || !st.isDeclaration ty) = true := by
    rw [hd.kind, h.coherent.isDeclaration hd]
    decide
  refine gives_get_bind ?_
  refine gives_refuse_bind (fun hrefused => absurd hrefused hdecl) fun _ => ?_
  cases hbody : st.nominals.bodies[ty]? with
  | some b =>
    refine gives_refuse_bind (fun _ => ?_) fun hbodies => ?_
    · refine ⟨h.settled hbody, ⟨rfl, rfl, rfl, rfl⟩, ?_, fun _ _ ht => ht, fun hst _ => hst⟩
      rw [h.waits hd List.mem_cons_self hbody] at hbody
      exact ⟨name, _, hd, productBody?_eq_some.mpr hbody, rfl⟩
    · exact absurd (by simp [Std.HashMap.contains_eq_isSome_getElem?, hbody]) hbodies
  | none =>
    refine gives_refuse_bind (fun hbodies => ?_) fun _ => ?_
    · simp [Std.HashMap.contains_eq_isSome_getElem?, hbody] at hbodies
    · refine gives_modify ⟨h.setBody hd.lt_size hbody (by simpa [Body.parts] using hfields) ?_ ?_ ?_,
        sameButBodies_setBody st ty _, ?_, fun _ _ htag => htag.setBody hbody,
        fun hst hwhole => faultless_setBody hst (by simpa [Body.parts] using hwhole)⟩
      · intro body heq
        obtain rfl := Body.product.inj heq
        exact ⟨rfl, hlen⟩
      · intro tags heq
        cases heq
      · intro name' k params' hd'
        exact (hd'.unique_of_id hd).2.1
      · refine ⟨name, { fields, fieldNames := names, parent := none },
          (sameButBodies_setBody st ty _).declares.mpr hd, productBody?_eq_some.mpr ?_, rfl⟩
        rw [bodies_setBody, if_pos rfl]

/-- A tag over the parameters of its sum is not refused. -/
theorem gives_bindTag {tag : TypeId} (h : st.Defining waiting)
    (hsum : st.Declares sumName sum .sum params) (htag : st.FreeFor sum params tag)
    (hwaits : tag ∉ waiting) :
    Gives (bindTag sum tag) st (fun _ => False) fun _ st' =>
      st'.Defining waiting ∧ Ties sum params st st' ∧ st'.Tied sum params tag := by
  obtain ⟨name, body, hd, hbody, hparent⟩ := htag
  refine gives_get_bind ?_
  refine gives_refuse_bind (fun hkind => hkind hd.kind) fun _ => ?_
  refine gives_refuse_bind (fun hargs => hargs (hd.nominalArgs.trans hsum.nominalArgs.symm))
    fun _ => ?_
  refine gives_refuse_bind (fun hnone => ?_) fun _ => ?_
  · rw [hbody] at hnone
    cases hnone
  · obtain ⟨hdefining, htied⟩ := h.bindParent hwaits hsum hd hbody hparent
    exact gives_modify ⟨hdefining, ties_bindParent tag _ (h.coherent.whole hsum), htied⟩

/-- The tags of a sum are tied to it one after the other. -/
theorem gives_bindTags (h : st.Defining waiting) (hsum : st.Declares sumName sum .sum params)
    (htags : ∀ tag ∈ tags, st.FreeFor sum params tag ∧ tag ∉ waiting) :
    Gives (tags.forM (bindTag sum)) st (fun _ => False) fun _ st' =>
      st'.Defining waiting ∧ Ties sum params st st' ∧ ∀ tag ∈ tags, st'.Tied sum params tag := by
  induction tags generalizing st with
  | nil => exact gives_pure ⟨h, .refl sum params st, by simp⟩
  | cons tag tags ih =>
    obtain ⟨⟨htag, hwaits⟩, htags⟩ := List.forall_mem_cons.mp htags
    refine (gives_bindTag h hsum htag hwaits).bind fun _ st₁ ⟨hdef, hties, htied⟩ => ?_
    refine (ih hdef (hties.declares.mpr hsum) fun t ht =>
      ⟨hties.free (htags t ht).1, (htags t ht).2⟩).mono
        (fun _ h => h) fun _ st₂ ⟨hdef₂, hties₂, htied₂⟩ => ?_
    exact ⟨hdef₂, hties.trans hties₂, List.forall_mem_cons.mpr ⟨hties₂.tied htied, htied₂⟩⟩

/-- A sum that waits gets its tags, or it keeps the empty body that it has. -/
theorem gives_defineSum (h : st.Defining (sum :: waiting))
    (hd : st.Declares sumName sum .sum params)
    (htags : ∀ tag ∈ tags, st.Untied params tag ∧ tag ∉ sum :: waiting) :
    let Q := fun st' => st'.Defining waiting ∧ SameButBodies st st' ∧
      (st.Faultless → st'.Faultless)
    Gives (defineSum sum tags) st Q fun _ => Q := by
  intro Q
  have hdecl : ¬ (decide (st.kind sum ≠ .sum) || !st.isDeclaration sum) = true := by
    rw [hd.kind, h.coherent.isDeclaration hd]
    decide
  refine gives_get_bind ?_
  refine gives_refuse_bind (fun hrefused => absurd hrefused hdecl) fun _ => ?_
  cases hbody : st.nominals.bodies[sum]? with
  | some b =>
    refine gives_refuse_bind (fun _ => ⟨h.settled hbody, ⟨rfl, rfl, rfl, rfl⟩, fun hst => hst⟩)
      fun hbodies => ?_
    exact absurd (by simp [Std.HashMap.contains_eq_isSome_getElem?, hbody]) hbodies
  | none =>
    refine gives_refuse_bind (fun hbodies => ?_) fun _ => ?_
    · simp [Std.HashMap.contains_eq_isSome_getElem?, hbody] at hbodies
    refine Gives.bind ((gives_bindTags h hd fun tag ht =>
      ⟨(htags tag ht).1.freeFor sum, (htags tag ht).2⟩).mono (fun _ => False.elim) fun _ _ h => h)
      fun _ st₁ ⟨hdef, hties, htied⟩ => gives_modify ?_
    have hd₁ := hties.declares.mpr hd
    refine ⟨hdef.setBody hd₁.lt_size (hties.waits hbody) ?_ ?_ ?_ ?_,
      hties.toSameButBodies.trans (sameButBodies_setBody st₁ sum _), fun hst =>
        faultless_setBody (hties.faultless hst) fun tag ht => ?_⟩
    · intro tag ht
      obtain ⟨tagName, body, htag, -⟩ := htied tag ht
      exact htag.lt_size
    · intro body heq
      cases heq
    · intro tags' heq name' params' hd' tag ht
      obtain rfl := Body.sum.inj heq
      obtain ⟨-, -, rfl⟩ := hd₁.unique_of_id hd'
      exact htied tag ht
    · intro name' k params' hd'
      exact (hd'.unique_of_id hd₁).2.1
    · obtain ⟨tagName, body, htag, -⟩ := htied tag ht
      exact hdef.coherent.whole htag

/-- A product that gets its fields had no body. -/
theorem gives_defineProduct_setBody :
    Gives (defineProduct ty fields names) st (fun _ => True) fun _ st' =>
      st' = st.setBody ty (.product { fields, fieldNames := names, parent := none }) := by
  refine gives_get_bind ?_
  refine gives_refuse_bind (fun _ => trivial) fun _ => ?_
  refine gives_refuse_bind (fun _ => trivial) fun _ => ?_
  exact gives_modify rfl

theorem gives_bindTags_bindParents (tags : List TypeId) (st : Store) :
    Gives (tags.forM (bindTag sum)) st (fun _ => True) fun _ st' =>
      st' = st.bindParents sum tags := by
  induction tags generalizing st with
  | nil => exact gives_pure rfl
  | cons tag tags ih =>
    refine Gives.bind (Q := fun _ st' => st' = st.bindParent tag sum) ?_ ?_
    · refine gives_get_bind ?_
      refine gives_refuse_bind (fun _ => trivial) fun _ => ?_
      refine gives_refuse_bind (fun _ => trivial) fun _ => ?_
      refine gives_refuse_bind (fun _ => trivial) fun _ => ?_
      exact gives_modify rfl
    · rintro _ _ rfl
      exact ih _

/-- A sum that gets its tags becomes their parent. -/
theorem gives_defineSum_setBody :
    Gives (defineSum sum tags) st (fun _ => True) fun _ st' =>
      st' = (st.bindParents sum tags).setBody sum (.sum tags) := by
  refine gives_get_bind ?_
  refine gives_refuse_bind (fun _ => trivial) fun _ => ?_
  refine gives_refuse_bind (fun _ => trivial) fun _ => ?_
  refine (gives_bindTags_bindParents tags st).bind ?_
  rintro _ _ rfl
  exact gives_modify rfl

end DeclM

end ConstraintTyping
