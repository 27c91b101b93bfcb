import ConstraintTyping.Proofs.Renaming.Rewriting
import ConstraintTyping.Proofs.Types.Forgetting

/-!
# The same declarations, up to a renaming

Two stores have different pasts: other types, other numbers, products and sums that were declared
once and are forgotten.  What they declare now is the same up to a renaming: the names that are
declared, the bodies, the instances and the order in which these were made.  `DeclareAlike` says so,
and each step that a store takes, taken on both sides with types that are alike, keeps it.

The tables are compared entry by entry, not by looking up types that are alike.  A type that is built
anew on one side can be there on the other from before, and then it matters that it has no entry.
-/

namespace ConstraintTyping

open Store StoreM

/-! ## Tables whose entries stand for each other -/

section Paired

variable {α β γ δ : Type} {r r' : α → β → Prop} {q q' : γ → δ → Prop} {G G' : α → γ → Prop}
  {H H' : β → δ → Prop} {a₀ : α} {b₀ : β} {c₀ : γ} {d₀ : δ}

/-- Every entry of a table stands for one of another table, and the other way round. -/
structure Paired (r : α → β → Prop) (q : γ → δ → Prop) (G : α → γ → Prop) (H : β → δ → Prop) :
    Prop where
  left : ∀ {a : α} {c : γ}, G a c → ∃ b d, H b d ∧ r a b ∧ q c d
  right : ∀ {b : β} {d : δ}, H b d → ∃ a c, G a c ∧ r a b ∧ q c d

namespace Paired

theorem mono (h : Paired r q G H) (hr : ∀ a b, r a b → r' a b) (hq : ∀ c d, q c d → q' c d) :
    Paired r' q' G H where
  left {a c} hG := by
    obtain ⟨b, d, hH, hab, hcd⟩ := h.left hG
    exact ⟨b, d, hH, hr a b hab, hq c d hcd⟩
  right {b d} hH := by
    obtain ⟨a, c, hG, hab, hcd⟩ := h.right hH
    exact ⟨a, c, hG, hr a b hab, hq c d hcd⟩

/-- What is found at places that stand for each other stands for each other. -/
theorem lookup (h : Paired r q G H) (hunique : ∀ {a b}, r a b → (a = a₀ ↔ b = b₀))
    {m : Option γ} {m' : Option δ} (hm : ∀ c, G a₀ c ↔ m = some c) (hm' : ∀ d, H b₀ d ↔ m' = some d) :
    Option.Rel q m m' := by
  cases m with
  | some c =>
    obtain ⟨b, d, hH, hab, hcd⟩ := h.left ((hm c).mpr rfl)
    obtain rfl := (hunique hab).mp rfl
    rw [(hm' d).mp hH]
    exact .some hcd
  | none =>
    cases m' with
    | none => exact .none
    | some d =>
      obtain ⟨a, c, hG, hab, -⟩ := h.right ((hm' d).mpr rfl)
      obtain rfl := (hunique hab).mpr rfl
      cases (hm c).mp hG

/-- Entries are made or replaced at places that stand for each other. -/
theorem insert (h : Paired r q G H) (hunique : ∀ {a b}, r a b → (a = a₀ ↔ b = b₀)) (hr : r a₀ b₀)
    (hq : q c₀ d₀) (hG : ∀ a c, G' a c ↔ a = a₀ ∧ c = c₀ ∨ a ≠ a₀ ∧ G a c)
    (hH : ∀ b d, H' b d ↔ b = b₀ ∧ d = d₀ ∨ b ≠ b₀ ∧ H b d) : Paired r q G' H' where
  left {a c} hac := by
    rcases (hG a c).mp hac with ⟨rfl, rfl⟩ | ⟨hne, hac⟩
    · exact ⟨b₀, d₀, (hH b₀ d₀).mpr (.inl ⟨rfl, rfl⟩), hr, hq⟩
    · obtain ⟨b, d, hbd, hab, hcd⟩ := h.left hac
      exact ⟨b, d, (hH b d).mpr (.inr ⟨fun heq => hne ((hunique hab).mpr heq), hbd⟩), hab, hcd⟩
  right {b d} hbd := by
    rcases (hH b d).mp hbd with ⟨rfl, rfl⟩ | ⟨hne, hbd⟩
    · exact ⟨a₀, c₀, (hG a₀ c₀).mpr (.inl ⟨rfl, rfl⟩), hr, hq⟩
    · obtain ⟨a, c, hac, hab, hcd⟩ := h.right hbd
      exact ⟨a, c, (hG a c).mpr (.inr ⟨fun heq => hne ((hunique hab).mp heq), hac⟩), hab, hcd⟩

end Paired

end Paired

namespace Shape

variable {α β : Type} {ρ : VarIdent → VarIdent} {r : α → β → Prop} {s : Shape α} {t : Shape β}

theorem Like.kind_eq (h : Like ρ r s t) : t.kind = s.kind := by cases h <;> rfl

theorem Like.nominalArgs (h : Like ρ r s t) : List.Forall₂ r s.nominalArgs t.nominalArgs := by
  cases h with
  | product _ h | sum _ h => exact h
  | trait _ hsubject h => exact .cons hsubject h
  | _ => exact .nil

end Shape

/-! ## What is behind a type -/

namespace Store.Anchored

variable {st : Store} {name : Name} {k : DeclKind} {ty d : TypeId} {args : List TypeId}

/-- What is behind a product or sum is what its name stands for, if that is of its kind. -/
theorem declOf?_eq (h : st.Anchored) (hty : st.shape ty = k.shape name args) :
    st.declOf? ty = (st.declared? name).filter fun d => st.kind d = k.kind := by
  have hkind : st.kind ty = k.kind := by rw [Store.kind, hty, DeclKind.kind_shape]
  rw [Store.declOf?]
  split
  · next d hd =>
    obtain ⟨params, hdecl⟩ := (h.links hd).declares hty
    rw [hdecl.declared, Option.filter_some_pos]
    simpa using hdecl.kind
  · rw [hkind, hty]
    cases k <;> rfl

/-- Nothing is behind what is no product, sum or trait. -/
theorem declOf?_eq_none (h : st.Anchored) (htrait : st.kind ty ≠ .trait)
    (hkind : ∀ k : DeclKind, st.kind ty ≠ k.kind) : st.declOf? ty = none := by
  by_contra hne
  obtain ⟨d, hd⟩ := Option.ne_none_iff_exists'.mp hne
  rcases h.madeFrom_of_declOf? hd with ⟨hty, -⟩ | ⟨name, k, params, args, -, hty⟩
  · exact htrait hty
  · exact hkind k (by rw [Store.kind, hty, DeclKind.kind_shape])

/-- A product or sum is a declaration if its name stands for it. -/
theorem isDeclaration_iff (h : st.Anchored) (hty : st.shape ty = k.shape name args) :
    st.isDeclaration ty = true ↔ st.declared? name = some ty := by
  rw [Store.isDeclaration, beq_iff_eq]
  constructor
  · intro hlink
    obtain ⟨params, hdecl⟩ := (h.links hlink).declares hty
    exact hdecl.declared
  · exact fun hname => (h.declares hname).1

end Store.Anchored

namespace Store

variable {st : Store}

/-- A type has a body. -/
def HasBody (st : Store) (ty : TypeId) (b : Body) : Prop := st.nominals.bodies[ty]? = some b

/-- Something declared has an instance at arguments. -/
def HasInstance (st : Store) (key : TypeId × List TypeId) (v : TypeId) : Prop :=
  (∃ name, st.declared? name = some key.1) ∧ st.nominals.variants[key]? = some v

variable {name : Name} {k : DeclKind} {d d' ty v x : TypeId} {params args : List TypeId} {b c : Body}
  {key : TypeId × List TypeId}

theorem exists_shape_of_kind (h : st.kind ty = k.kind) :
    ∃ name args, st.shape ty = k.shape name args := by
  rw [Store.kind] at h
  generalize st.shape ty = s at h ⊢
  cases k <;> cases s <;> first | exact ⟨_, _, rfl⟩ | cases h

theorem hasBody_setBody : (st.setBody ty b).HasBody x c ↔ x = ty ∧ c = b ∨ x ≠ ty ∧ st.HasBody x c := by
  rw [HasBody, bodies_setBody, HasBody]
  by_cases heq : ty = x
  · simp [heq, eq_comm]
  · simp [heq, Ne.symm heq]

theorem hasInstance_enterVariant (hd : st.declared? name = some d) :
    (DeclM.enterVariant d args v st).HasInstance key x ↔
      key = (d, args) ∧ x = v ∨ key ≠ (d, args) ∧ st.HasInstance key x := by
  show (∃ name, st.declared? name = some key.1) ∧
    (st.nominals.variants.insert (d, args) v)[key]? = some x ↔ _
  rw [Std.HashMap.getElem?_insert, HasInstance]
  by_cases heq : (d, args) = key
  · subst heq
    simp only [beq_self_eq_true, if_true, Option.some.injEq, true_and, ne_eq, not_true, false_and,
      or_false]
    exact ⟨fun h => h.2.symm, fun h => ⟨⟨name, hd⟩, h.symm⟩⟩
  · rw [if_neg (by simpa using heq)]
    simp [Ne.symm heq]

theorem isSome_declOf_enterVariant (d : TypeId) (args : List TypeId) (v : TypeId) (st : Store) :
    ((DeclM.enterVariant d args v st).nominals.declOf[v]?).isSome = true := by
  show ((st.nominals.declOf.insert v d)[v]?).isSome = true
  rw [Std.HashMap.getElem?_insert_self]
  rfl

theorem variants_enterVariant (d : TypeId) (args : List TypeId) (v : TypeId) (st : Store) :
    (DeclM.enterVariant d args v st).variants = st.variants ++ [v] :=
  Array.toList_push

/-- An instance of a declared product or sum is of its kind. -/
theorem Anchored.kind_variant (h : st.Anchored) (hd : st.Declares name d k params)
    (hv : st.nominals.variants[(d, args)]? = some v) : st.kind v = k.kind := by
  rcases h.variants hv with ⟨htrait, -⟩ | hlink
  · exact absurd (hd.kind.symm.trans htrait) k.kind_ne_trait
  rcases h.links hlink with ⟨-, htrait⟩ | ⟨name', k', params', args', hd', hshape⟩
  · exact absurd (hd.kind.symm.trans htrait) k.kind_ne_trait
  · obtain ⟨-, rfl, -⟩ := hd.unique_of_id hd'
    rw [Store.kind, hshape, DeclKind.kind_shape]

/-- What is newly declared has no instances yet. -/
theorem Anchored.hasInstance_declare (h : st.Anchored) (hnone : st.declared? name = none)
    (hshape : st.shape d = k.shape name args) : (st.declare name d).HasInstance = st.HasInstance := by
  funext key v
  refine propext (and_congr_left fun hv => ?_)
  change st.nominals.variants[key]? = some v at hv
  simp only [declared?_declare]
  constructor
  · rintro ⟨name', hname'⟩
    split at hname'
    · obtain rfl := Option.some.inj hname'
      have hkind : st.kind key.1 = k.kind := by rw [Store.kind, hshape, DeclKind.kind_shape]
      obtain ⟨d₁, args₁⟩ := key
      rcases h.variants hv with ⟨htrait, -⟩ | hlink
      · exact absurd (hkind.symm.trans htrait) k.kind_ne_trait
      rcases h.links hlink with ⟨-, htrait⟩ | ⟨name', k', params', args', hd', -⟩
      · exact absurd (hkind.symm.trans htrait) k.kind_ne_trait
      · exact ⟨name', hd'.declared⟩
    · exact ⟨name', hname'⟩
  · rintro ⟨name', hname'⟩
    refine ⟨name', ?_⟩
    rw [if_neg, hname']
    rintro rfl
    rw [hnone] at hname'
    cases hname'

end Store

namespace Renaming

variable {R : Renaming} {old w w' : Stores} {a a' b b' d d' v v' : TypeId} {as as' bs bs' : List TypeId}
  {name : Name} {k : DeclKind} {κ : Kind} {c c' : Body} {params params' : List TypeId}

/-! ## Types that are alike -/

theorem Alike.kind_eq (h : R.Alike w a b) : w.2.kind b = w.1.kind a := h.shape.kind_eq

theorem Alike.nominalArgs (h : R.Alike w a b) :
    R.AllAlike w (w.1.nominalArgs a) (w.2.nominalArgs b) :=
  h.shape.nominalArgs

/-- Products and sums that are alike have the same name. -/
theorem Alike.shape_nominal (h : R.Alike w a b) (ha : w.1.shape a = k.shape name as) :
    ∃ bs, w.2.shape b = k.shape name bs ∧ R.AllAlike w as bs := by
  have hlike := h.shape
  rw [ha] at hlike
  generalize w.2.shape b = s at hlike ⊢
  cases k with
  | product => cases hlike with
    | product _ hargs => exact ⟨_, rfl, hargs⟩
  | sum => cases hlike with
    | sum _ hargs => exact ⟨_, rfl, hargs⟩

/-- Types of a kind that are alike. -/
structure AlikeOf (R : Renaming) (κ : Kind) (w : Stores) (a b : TypeId) : Prop
    extends R.Alike w a b where
  kind : w.1.kind a = κ

theorem AlikeOf.of_le (h : R.AlikeOf κ w a b) (hle : w ≤ w') : R.AlikeOf κ w' a b :=
  ⟨h.toAlike.of_le hle, (kind_of_le hle.1 h.left_lt).trans h.kind⟩

theorem AllAlike.of_alikeOf (h : List.Forall₂ (R.AlikeOf κ w) as bs) : R.AllAlike w as bs :=
  h.imp fun _ _ h => h.toAlike

/-- Declarations of a kind that are alike, under one name. -/
structure AlikeDecl (R : Renaming) (k : DeclKind) (w : Stores) (d d' : TypeId) : Prop where
  alike : R.Alike w d d'
  declares : ∃ name params params', w.1.Declares name d k params ∧ w.2.Declares name d' k params'

theorem AlikeDecl.alikeOf (h : R.AlikeDecl k w d d') : R.AlikeOf k.kind w d d' := by
  obtain ⟨name, params, params', hd, -⟩ := h.declares
  exact ⟨h.alike, hd.kind⟩

/-- Bodies over types that are alike: the sum of a tag, and the tags of a sum. -/
inductive AlikeContent (R : Renaming) (w : Stores) : Body → Body → Prop
  | product {body body' : ProductBody} (fieldNames : body'.fieldNames = body.fieldNames)
      (fields : R.AllAlike w body.fields body'.fields)
      (parent : Option.Rel (R.AlikeOf .sum w) body.parent body'.parent) :
      AlikeContent R w (.product body) (.product body')
  | sum {tags tags' : List TypeId} (h : List.Forall₂ (R.AlikeOf .product w) tags tags') :
      AlikeContent R w (.sum tags) (.sum tags')

theorem AlikeContent.of_le (h : R.AlikeContent w c c') (hle : w ≤ w') : R.AlikeContent w' c c' := by
  cases h with
  | product fieldNames fields parent =>
    exact .product fieldNames (fields.of_le hle) (rel_option_mono parent fun _ _ h => h.of_le hle)
  | sum h => exact .sum (h.imp fun _ _ h => h.of_le hle)

/-- Types that are alike at arguments that are alike. -/
def AlikeKey (R : Renaming) (w : Stores) (key key' : TypeId × List TypeId) : Prop :=
  R.Alike w key.1 key'.1 ∧ R.AllAlike w key.2 key'.2

theorem AlikeKey.of_le {key key' : TypeId × List TypeId} (h : R.AlikeKey w key key') (hle : w ≤ w') :
    R.AlikeKey w' key key' :=
  ⟨h.1.of_le hle, h.2.of_le hle⟩

theorem AlikeKey.eq_iff {key key' l l' : TypeId × List TypeId} (h : R.AlikeKey w key key')
    (h' : R.AlikeKey w l l') : key = l ↔ key' = l' := by
  rw [Prod.ext_iff, Prod.ext_iff, h.1.eq_iff h'.1, h.2.eq_iff h'.2]

/-! ## Stores that declare the same -/

/-- Two stores declare the same up to a renaming: under the same names, with the same bodies, and with
the same instances, which were made in the same order since `old`. -/
structure DeclareAlike (R : Renaming) (old w : Stores) : Prop where
  left : w.1.Anchored
  right : w.2.Anchored
  declared : ∀ name, Option.Rel (R.Alike w) (w.1.declared? name) (w.2.declared? name)
  bodies : Paired (R.Alike w) (R.AlikeContent w) w.1.HasBody w.2.HasBody
  instances : Paired (R.AlikeKey w) (R.Alike w) w.1.HasInstance w.2.HasInstance
  listed : ∃ vs vs', w.1.variants = old.1.variants ++ vs ∧ w.2.variants = old.2.variants ++ vs' ∧
    R.AllAlike w vs vs'

/-- Where nothing is declared, it is the same. -/
theorem declareAlike_of_none (R : Renaming) (h : w.1.Anchored) (h' : w.2.Anchored)
    (hnone : ∀ name, w.1.declared? name = none) (hnone' : ∀ name, w.2.declared? name = none) :
    R.DeclareAlike w w where
  left := h
  right := h'
  declared name := by rw [hnone, hnone']; exact .none
  bodies :=
    { left := fun hb => by cases (h.bodies_of_none hnone _).symm.trans hb
      right := fun hb => by cases (h'.bodies_of_none hnone' _).symm.trans hb }
  instances :=
    { left := fun ⟨⟨name, hname⟩, _⟩ => by cases (hnone name).symm.trans hname
      right := fun ⟨⟨name, hname⟩, _⟩ => by cases (hnone' name).symm.trans hname }
  listed := ⟨[], [], (List.append_nil _).symm, (List.append_nil _).symm, .nil⟩

namespace DeclareAlike

variable (h : R.DeclareAlike old w)
include h

/-! ### Reading the tables -/

theorem content (hab : R.Alike w a b) :
    Option.Rel (R.AlikeContent w) (w.1.nominals.bodies[a]?) (w.2.nominals.bodies[b]?) :=
  h.bodies.lookup (fun h => h.eq_iff hab) (fun _ => Iff.rfl) fun _ => Iff.rfl

theorem hasBody_eq (hab : R.Alike w a b) :
    w.2.nominals.bodies.contains b = w.1.nominals.bodies.contains a := by
  rw [Std.HashMap.contains_eq_isSome_getElem?, Std.HashMap.contains_eq_isSome_getElem?]
  have hrel := h.content hab
  revert hrel
  cases w.1.nominals.bodies[a]? <;> cases w.2.nominals.bodies[b]? <;> intro hrel <;> cases hrel <;>
    rfl

theorem productBody? (hab : R.Alike w a b) : Option.Rel
    (fun body body' => R.AlikeContent w (.product body) (.product body')) (w.1.productBody? a)
    (w.2.productBody? b) := by
  have hrel := h.content hab
  rw [Store.productBody?, Store.productBody?]
  generalize w.1.nominals.bodies[a]? = x at hrel ⊢
  generalize w.2.nominals.bodies[b]? = y at hrel ⊢
  cases hrel with
  | none => exact .none
  | some hc =>
    cases hc with
    | product h₁ h₂ h₃ => exact .some (.product h₁ h₂ h₃)
    | sum _ => exact .none

theorem sumTags? (hab : R.Alike w a b) :
    Option.Rel (List.Forall₂ (R.AlikeOf .product w)) (w.1.sumTags? a) (w.2.sumTags? b) := by
  have hrel := h.content hab
  rw [Store.sumTags?, Store.sumTags?]
  generalize w.1.nominals.bodies[a]? = x at hrel ⊢
  generalize w.2.nominals.bodies[b]? = y at hrel ⊢
  cases hrel with
  | none => exact .none
  | some hc =>
    cases hc with
    | product => exact .none
    | sum htags => exact .some htags

/-- The fields that instances are made from. -/
theorem fields (hab : R.Alike w a b) : R.AllAlike w (((w.1.productBody? a).map (·.fields)).getD [])
    (((w.2.productBody? b).map (·.fields)).getD []) := by
  have hbody := h.productBody? hab
  generalize w.1.productBody? a = x at hbody
  generalize w.2.productBody? b = y at hbody
  cases hbody with
  | none => exact .nil
  | some hc =>
    cases hc with
    | product _ hfields _ => exact hfields

theorem tags (hab : R.Alike w a b) : List.Forall₂ (R.AlikeOf .product w)
    ((w.1.sumTags? a).getD []) ((w.2.sumTags? b).getD []) := by
  have hbody := h.sumTags? hab
  generalize w.1.sumTags? a = x at hbody
  generalize w.2.sumTags? b = y at hbody
  cases hbody with
  | none => exact .nil
  | some htags => exact htags

/-- What is behind products and sums that are alike: declarations of their kind. -/
theorem declOf? (hab : R.AlikeOf k.kind w a b) :
    Option.Rel (R.AlikeDecl k w) (w.1.declOf? a) (w.2.declOf? b) := by
  obtain ⟨name, as, ha⟩ := exists_shape_of_kind hab.kind
  obtain ⟨bs, hb, -⟩ := hab.shape_nominal ha
  rw [h.left.declOf?_eq ha, h.right.declOf?_eq hb]
  have hname := h.declared name
  generalize hl : w.1.declared? name = x at hname
  generalize hr : w.2.declared? name = y at hname
  cases hname with
  | none => exact .none
  | @some d d' hdd =>
    rw [Option.filter_some, Option.filter_some, hdd.kind_eq]
    split
    · next hd =>
      have hd : w.1.kind d = k.kind := by simpa using hd
      obtain ⟨-, k₁, params, hdecl⟩ := h.left.declares hl
      obtain ⟨-, k₂, params', hdecl'⟩ := h.right.declares hr
      obtain rfl := DeclKind.kind_injective (hdecl.kind.symm.trans hd)
      obtain rfl := DeclKind.kind_injective (hdecl'.kind.symm.trans (hdd.kind_eq.trans hd))
      exact .some ⟨hdd, name, params, params', hdecl, hdecl'⟩
    · exact .none

/-- Nothing is behind other types that are alike, except for traits. -/
theorem declOf?_eq_none (hab : R.Alike w a b) (htrait : w.1.kind a ≠ .trait)
    (hkind : ∀ k : DeclKind, w.1.kind a ≠ k.kind) :
    w.1.declOf? a = none ∧ w.2.declOf? b = none := by
  refine ⟨h.left.declOf?_eq_none htrait hkind, h.right.declOf?_eq_none ?_ fun k => ?_⟩ <;>
    rw [hab.kind_eq]
  · exact htrait
  · exact hkind k

theorem isDeclaration_eq (hab : R.AlikeOf k.kind w a b) :
    w.2.isDeclaration b = w.1.isDeclaration a := by
  obtain ⟨name, as, ha⟩ := exists_shape_of_kind hab.kind
  obtain ⟨bs, hb, -⟩ := hab.shape_nominal ha
  rw [Bool.eq_iff_iff, h.left.isDeclaration_iff ha, h.right.isDeclaration_iff hb]
  have hname := h.declared name
  generalize w.1.declared? name = x at hname
  generalize w.2.declared? name = y at hname
  cases hname with
  | none => simp
  | some hdd => rw [Option.some.injEq, Option.some.injEq, hdd.eq_iff hab.toAlike]

/-- The instances of a declaration, which are of its kind. -/
theorem variant (hdd : R.AlikeDecl k w d d') (hargs : R.AllAlike w as bs) :
    Option.Rel (R.AlikeOf k.kind w) (w.1.nominals.variants[(d, as)]?)
      (w.2.nominals.variants[(d', bs)]?) := by
  obtain ⟨name, params, params', hd, hd'⟩ := hdd.declares
  have hkey : R.AlikeKey w (d, as) (d', bs) := ⟨hdd.alike, hargs⟩
  have hrel := h.instances.lookup (fun hl => hl.eq_iff hkey)
    (fun v => and_iff_right ⟨name, hd.declared⟩) fun v => and_iff_right ⟨name, hd'.declared⟩
  generalize hv : w.1.nominals.variants[(d, as)]? = x at hrel
  generalize w.2.nominals.variants[(d', bs)]? = y at hrel
  cases hrel with
  | none => exact .none
  | some hvv => exact .some ⟨hvv, h.left.kind_variant hd hv⟩

/-! ### Steps -/

/-- Types that are added do not matter. -/
theorem of_nominals (hle : w ≤ w') (hnom : w'.1.nominals = w.1.nominals)
    (hnom' : w'.2.nominals = w.2.nominals) : R.DeclareAlike old w' where
  left := h.left.of_nominals hle.1 hnom
  right := h.right.of_nominals hle.2 hnom'
  declared name := by
    rw [Store.declared?, Store.declared?, hnom, hnom']
    exact rel_option_mono (h.declared name) fun _ _ h => h.of_le hle
  bodies := by
    unfold Store.HasBody
    rw [hnom, hnom']
    exact h.bodies.mono (fun _ _ h => h.of_le hle) fun _ _ h => h.of_le hle
  instances := by
    unfold Store.HasInstance Store.declared?
    rw [hnom, hnom']
    exact h.instances.mono (fun _ _ h => h.of_le hle) fun _ _ h => h.of_le hle
  listed := by
    obtain ⟨vs, vs', hvs, hvs', halike⟩ := h.listed
    refine ⟨vs, vs', ?_, ?_, halike.of_le hle⟩
    · rw [← hvs, Store.variants, hnom, Store.variants]
    · rw [← hvs', Store.variants, hnom', Store.variants]

/-- A declaration of a name that is not declared. -/
theorem declare (hnone : w.1.declared? name = none) (hdd : R.Alike w d d')
    (hd : w.1.shape d = k.shape name as) :
    R.DeclareAlike old (w.1.declare name d, w.2.declare name d') := by
  obtain ⟨bs, hd', -⟩ := hdd.shape_nominal hd
  have hnone' : w.2.declared? name = none := by
    have hrel := h.declared name
    rw [hnone] at hrel
    generalize w.2.declared? name = y at hrel
    cases hrel
    rfl
  have hle : w ≤ (w.1.declare name d, w.2.declare name d') := ⟨le_refl w.1, le_refl w.2⟩
  have hdeclared := h.declared
  have hinstances := h.instances
  refine ⟨h.left.declare hnone hd, h.right.declare hnone' hd', fun name' => ?_,
    h.bodies.mono (fun _ _ h => h.of_le hle) fun _ _ h => h.of_le hle, ?_, ?_⟩
  · rw [declared?_declare, declared?_declare]
    split
    · exact .some (hdd.of_le hle)
    · exact rel_option_mono (hdeclared name') fun _ _ h => h.of_le hle
  · rw [h.left.hasInstance_declare hnone hd, h.right.hasInstance_declare hnone' hd']
    exact hinstances.mono (fun _ _ h => h.of_le hle) fun _ _ h => h.of_le hle
  · obtain ⟨vs, vs', hvs, hvs', halike⟩ := h.listed
    exact ⟨vs, vs', hvs, hvs', halike.of_le hle⟩

/-- A product or sum with a link gets a body. -/
theorem setBody (hab : R.Alike w a b) (hc : R.AlikeContent w c c') (hkind : w.1.kind a = k.kind)
    (hlink : (w.1.nominals.declOf[a]?).isSome = true)
    (hlink' : (w.2.nominals.declOf[b]?).isSome = true) :
    R.DeclareAlike old (w.1.setBody a c, w.2.setBody b c') := by
  have hle : w ≤ (w.1.setBody a c, w.2.setBody b c') := ⟨le_refl w.1, le_refl w.2⟩
  have hbodies : Paired (R.Alike w) (R.AlikeContent w) (w.1.setBody a c).HasBody
      (w.2.setBody b c').HasBody :=
    h.bodies.insert (fun hxy => hxy.eq_iff hab) hab hc (fun _ _ => hasBody_setBody)
      fun _ _ => hasBody_setBody
  have hinstances := h.instances
  obtain ⟨vs, vs', hvs, hvs', halike⟩ := h.listed
  exact {
    left := h.left.setBody hkind hlink c
    right := h.right.setBody (hab.kind_eq.trans hkind) hlink' c'
    declared := fun name => rel_option_mono (h.declared name) fun _ _ h => h.of_le hle
    bodies := hbodies.mono (fun _ _ h => h.of_le hle) fun _ _ h => h.of_le hle
    instances := hinstances.mono (fun _ _ h => h.of_le hle) fun _ _ h => h.of_le hle
    listed := ⟨vs, vs', hvs, hvs', halike.of_le hle⟩ }

theorem ensureBody (hab : R.Alike w a b) (hc : R.AlikeContent w c c') (hkind : w.1.kind a = k.kind)
    (hlink : (w.1.nominals.declOf[a]?).isSome = true)
    (hlink' : (w.2.nominals.declOf[b]?).isSome = true) :
    R.DeclareAlike old (DeclM.ensureBody a c w.1, DeclM.ensureBody b c' w.2) := by
  unfold DeclM.ensureBody
  rw [h.hasBody_eq hab]
  split
  · exact h
  · exact h.setBody hab hc hkind hlink hlink'

/-- A product is tied to a sum. -/
theorem bindParent (hab : R.Alike w a b) (hsum : R.AlikeOf .sum w v v') :
    R.DeclareAlike old (w.1.bindParent a v, w.2.bindParent b v') := by
  have hrel := h.productBody? hab
  generalize hl : w.1.productBody? a = x at hrel
  generalize hr : w.2.productBody? b = y at hrel
  cases hrel with
  | none =>
    rw [bindParent_of_none hl, bindParent_of_none hr]
    exact h
  | @some body body' hc =>
    have hsome : (w.1.nominals.bodies[a]?).isSome = true := by rw [productBody?_eq_some.mp hl]; rfl
    have hsome' : (w.2.nominals.bodies[b]?).isSome = true := by rw [productBody?_eq_some.mp hr]; rfl
    obtain ⟨⟨k, hkind⟩, hlink⟩ := h.left.bodies hsome
    obtain ⟨-, hlink'⟩ := h.right.bodies hsome'
    rw [Store.bindParent, Store.bindParent, hl, hr]
    cases hc with
    | product hnames hfields hparent =>
      refine h.setBody hab (.product hnames hfields ?_) hkind hlink hlink'
      generalize body.parent = p at hparent ⊢
      generalize body'.parent = p' at hparent ⊢
      cases hparent with
      | none => exact .some hsum
      | some hp => exact .some hp

omit h in
/-- Products are tied to a sum one after the other. -/
theorem bindParents (h : R.DeclareAlike old w) (htags : R.AllAlike w as bs)
    (hsum : R.AlikeOf .sum w v v') :
    R.DeclareAlike old (w.1.bindParents v as, w.2.bindParents v' bs) := by
  induction as generalizing bs w with
  | nil =>
    cases htags
    exact h
  | cons a as ih =>
    cases htags with
    | @cons _ b _ bs hab htags =>
      have hle : w ≤ (w.1.bindParent a v, w.2.bindParent b v') :=
        ⟨(sameButBodies_bindParent w.1 a v).le, (sameButBodies_bindParent w.2 b v').le⟩
      exact ih (h.bindParent hab hsum) (AllAlike.of_le htags hle) (hsum.of_le hle)

/-- An instance is entered. -/
theorem enterVariant (hd : w.1.Declares name d k params) (hd' : w.2.Declares name d' k params')
    (hdd : R.Alike w d d') (hargs : R.AllAlike w as bs) (hvv : R.Alike w v v')
    (hv : w.1.shape v = k.shape name as') :
    R.DeclareAlike old (DeclM.enterVariant d as v w.1, DeclM.enterVariant d' bs v' w.2) := by
  have hle : w ≤ (DeclM.enterVariant d as v w.1, DeclM.enterVariant d' bs v' w.2) :=
    ⟨le_refl w.1, le_refl w.2⟩
  obtain ⟨bs', hv', -⟩ := hvv.shape_nominal hv
  have hkey : R.AlikeKey w (d, as) (d', bs) := ⟨hdd, hargs⟩
  have hinstances : Paired (R.AlikeKey w) (R.Alike w) (DeclM.enterVariant d as v w.1).HasInstance
      (DeclM.enterVariant d' bs v' w.2).HasInstance :=
    h.instances.insert (fun hkl => hkl.eq_iff hkey) hkey hvv
      (fun _ _ => hasInstance_enterVariant hd.declared)
      fun _ _ => hasInstance_enterVariant hd'.declared
  have hbodies := h.bodies
  obtain ⟨vs, vs', hvs, hvs', halike⟩ := h.listed
  refine ⟨h.left.enterVariant (.inr ⟨name, k, params, as', hd, hv⟩) as,
    h.right.enterVariant (.inr ⟨name, k, params', bs', hd', hv'⟩) bs,
    fun name => rel_option_mono (h.declared name) fun _ _ h => h.of_le hle,
    hbodies.mono (fun _ _ h => h.of_le hle) fun _ _ h => h.of_le hle,
    hinstances.mono (fun _ _ h => h.of_le hle) fun _ _ h => h.of_le hle,
    vs ++ [v], vs' ++ [v'], ?_, ?_, ?_⟩
  · rw [variants_enterVariant, hvs, List.append_assoc]
  · rw [variants_enterVariant, hvs', List.append_assoc]
  · exact List.rel_append (halike.of_le hle) (.cons (hvv.of_le hle) .nil)

end DeclareAlike

end Renaming

end ConstraintTyping
