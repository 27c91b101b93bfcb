import ConstraintTyping.Infer.Coverage
import ConstraintTyping.Proofs.Check.DeclaredTypes

/-!
# Coverage of a match is sound

Coverage is decided from patterns alone, without a look at the type of the matched value.  Here values
and their types come in: when all patterns fit one type and no case is reported as open, every value
of that type is matched.  Where tags are matched and no pattern matches everything, the open cases are
the tags of the declaration that no arm covers, in the order in which they are written, whatever the
order of the arms.
-/

namespace ConstraintTyping

open Store TypeTree

/-! ## Values -/

/-- Values, as far as patterns tell them apart.  What has no parts is an atom, and the unit value is
the tuple of nothing. -/
inductive Value (α : Type) where
  | atom (a : α)
  | bool (value : Bool)
  | tuple (items : List (Value α))
  /-- A value of a product or sum, with the product or tag that it was built by. -/
  | built (name : Name) (fields : List (Value α))

/-- Numbers, characters, pointers, arrays and functions: which of them are of a type, and which one a
literal stands for. -/
structure Atoms (α : Type) where
  OfType : TypeTree → α → Prop
  ofLiteral : ExprForm → α

variable {α : Type} {D : Declarations} {A : Atoms α}

/-- The value that a literal stands for. -/
def Atoms.value (A : Atoms α) : ExprForm → Value α
  | .bool value => .bool value
  | .unit => .tuple []
  | form => .atom (A.ofLiteral form)

/-- A type whose values have no parts. -/
def TypeTree.IsAtomic (t : TypeTree) : Prop :=
  match t.shape with
  | .prim p => p ≠ .bool ∧ p ≠ .unit
  | .tuple _ | .product _ _ | .sum _ _ => False
  | _ => True

/-- A value is of a type.  A product or tag builds values at any types for its parameters. -/
inductive Value.OfType (D : Declarations) (A : Atoms α) : Value α → TypeTree → Prop
  | atom {a : α} {t : TypeTree} (ht : t.IsAtomic) (h : A.OfType t a) : OfType D A (.atom a) t
  | bool {value : Bool} : OfType D A (.bool value) (prim .bool)
  | tuple {items : List (Value α)} {ts : List TypeTree} (h : List.Forall₂ (OfType D A) items ts) :
      OfType D A (.tuple items) (TypeTree.tuple ts)
  | built {name : Name} {p : ProductDecl} {args : List TypeTree} {fields : List (Value α)}
      (hproduct : D.product? name = some p) (hargs : args.length = p.params.length)
      (h : List.Forall₂ (OfType D A) fields (p.fieldsAt var args)) :
      OfType D A (.built name fields) (p.result name args)

namespace TypeTree

theorem tuple_injective : Function.Injective TypeTree.tuple := by
  intro ts us h
  unfold TypeTree.tuple at h
  cases ts <;> cases us <;> simp_all

theorem isAtomic_tuple (ts : List TypeTree) : ¬ (TypeTree.tuple ts).IsAtomic := by
  cases ts <;> simp [TypeTree.tuple, IsAtomic]

theorem isAtomic_shape (k : DeclKind) (type : Name) (args : List TypeTree) :
    ¬ (TypeTree.mk (k.shape type args)).IsAtomic := by
  cases k <;> simp [IsAtomic, DeclKind.shape]

theorem tuple_ne_bool (ts : List TypeTree) : TypeTree.tuple ts ≠ prim .bool := by
  cases ts <;> simp [TypeTree.tuple]

end TypeTree

namespace ProductDecl

variable {p q : ProductDecl} {name name' : Name} {args args' : List TypeTree}

/-- What a product builds is a product or a sum at the same types. -/
theorem exists_result (p : ProductDecl) (name : Name) (args : List TypeTree) :
    ∃ (k : DeclKind) (type : Name), p.result name args = .mk (k.shape type args) := by
  unfold result
  cases p.parent with
  | none => exact ⟨.product, name, rfl⟩
  | some sum => exact ⟨.sum, sum, rfl⟩

theorem result_ne_prim (r : Prim) : p.result name args ≠ prim r := by
  obtain ⟨k, type, h⟩ := p.exists_result name args
  rw [h]
  cases k <;> simp [DeclKind.shape]

theorem result_ne_tuple (ts : List TypeTree) : p.result name args ≠ TypeTree.tuple ts := by
  obtain ⟨k, type, h⟩ := p.exists_result name args
  rw [h]
  cases ts <;> cases k <;> simp [DeclKind.shape, TypeTree.tuple]

theorem args_eq_of_result (h : p.result name args = q.result name' args') : args = args' := by
  obtain ⟨k, type, hp⟩ := p.exists_result name args
  obtain ⟨k', type', hq⟩ := q.exists_result name' args'
  rw [hp, hq] at h
  exact (DeclKind.shape_inj (TypeTree.mk.inj h)).2.2

end ProductDecl

namespace Value.OfType

variable {v : Value α}

theorem of_bool (h : v.OfType D A (prim .bool)) : ∃ value, v = .bool value := by
  generalize ht : prim .bool = t at h
  cases h with
  | atom hatomic _ =>
    subst ht
    exact absurd rfl hatomic.1
  | bool => exact ⟨_, rfl⟩
  | tuple _ => exact absurd ht.symm (tuple_ne_bool _)
  | built _ _ _ => exact absurd ht.symm (ProductDecl.result_ne_prim _)

theorem of_tuple {ts : List TypeTree} (h : v.OfType D A (TypeTree.tuple ts)) :
    ∃ items, v = .tuple items ∧ List.Forall₂ (Value.OfType D A) items ts := by
  generalize ht : TypeTree.tuple ts = t at h
  cases h with
  | atom hatomic _ =>
    subst ht
    exact absurd hatomic (isAtomic_tuple ts)
  | bool => exact absurd ht (tuple_ne_bool ts)
  | tuple hitems =>
    obtain rfl := tuple_injective ht
    exact ⟨_, rfl, hitems⟩
  | built _ _ _ => exact absurd ht.symm (ProductDecl.result_ne_tuple ts)

/-- A value of a product or sum is built by a product or tag of that type. -/
theorem of_declared {k : DeclKind} {type : Name} {args : List TypeTree}
    (h : v.OfType D A (.mk (k.shape type args))) :
    ∃ (tag : Name) (q : ProductDecl) (fields : List (Value α)), v = .built tag fields ∧
      D.product? tag = some q ∧ q.result tag args = .mk (k.shape type args) ∧
      List.Forall₂ (Value.OfType D A) fields (q.fieldsAt var args) := by
  generalize ht : TypeTree.mk (k.shape type args) = t at h
  cases h with
  | atom hatomic _ =>
    subst ht
    exact absurd hatomic (isAtomic_shape k type args)
  | bool => cases k <;> cases ht
  | @tuple items ts _ => cases ts <;> cases k <;> cases ht
  | @built tag q args' fields hproduct _ hfields =>
    obtain ⟨k', type', hresult⟩ := q.exists_result tag args'
    rw [hresult] at ht
    obtain ⟨rfl, rfl, rfl⟩ := DeclKind.shape_inj (TypeTree.mk.inj ht)
    exact ⟨tag, q, fields, rfl, hproduct, rfl, hfields⟩

end Value.OfType

/-! ## Patterns -/

namespace Pattern

/-- A pattern fits a type: literals have it, tuples have its number of components, and tags are those
of a declared product or of one of the tags of a declared sum, with a pattern for each field. -/
inductive Fits (D : Declarations) : Pattern → TypeTree → Prop
  | wildcard {id : PatternId} {t : TypeTree} : Fits D (.wildcard id) t
  | binding {id : PatternId} {name : Name} {t : TypeTree} : Fits D (.binding id name) t
  | literal {id : PatternId} {expr : Expr} {t : TypeTree} (h : LiteralHas expr.form t) :
      Fits D (.literal id expr) t
  | tuple {id : PatternId} {items : List Pattern} {ts : List TypeTree}
      (h : List.Forall₂ (Fits D) items ts) : Fits D (.tuple id items) (TypeTree.tuple ts)
  | tag {id : PatternId} {name : Name} {items : List Pattern} {p : ProductDecl}
      {args : List TypeTree} (hproduct : D.product? name = some p)
      (hargs : args.length = p.params.length)
      (h : List.Forall₂ (Fits D) items (p.fieldsAt var args)) :
      Fits D (.tag id name items) (p.result name args)

/-- A pattern matches a value. -/
inductive Matches (A : Atoms α) : Pattern → Value α → Prop
  | wildcard {id : PatternId} {v : Value α} : Matches A (.wildcard id) v
  | binding {id : PatternId} {name : Name} {v : Value α} : Matches A (.binding id name) v
  | literal {id : PatternId} {expr : Expr} : Matches A (.literal id expr) (A.value expr.form)
  | tuple {id : PatternId} {items : List Pattern} {vs : List (Value α)}
      (h : List.Forall₂ (Matches A) items vs) : Matches A (.tuple id items) (.tuple vs)
  | tag {id : PatternId} {name : Name} {items : List Pattern} {vs : List (Value α)}
      (h : List.Forall₂ (Matches A) items vs) : Matches A (.tag id name items) (.built name vs)

/-- A pattern of wildcards, bindings and tuples of those. -/
inductive Irrefutable : Pattern → Prop
  | wildcard {id : PatternId} : Irrefutable (.wildcard id)
  | binding {id : PatternId} {name : Name} : Irrefutable (.binding id name)
  | tuple {id : PatternId} {items : List Pattern} (h : ∀ p ∈ items, p.Irrefutable) :
      Irrefutable (.tuple id items)

/-- An arm covers a tag: below the tag it has nothing but wildcards, bindings and tuples of those. -/
def Covers (p : Pattern) (tag : Name) : Prop :=
  ∃ id items, p = .tag id tag items ∧ ∀ q ∈ items, q.Irrefutable

mutual

theorem isOpen_iff : ∀ p : Pattern, p.isOpen = true ↔ p.Irrefutable
  | .wildcard _ => iff_of_true rfl .wildcard
  | .binding _ _ => iff_of_true rfl .binding
  | .literal _ _ => iff_of_false Bool.false_ne_true nofun
  | .tag _ _ _ => iff_of_false Bool.false_ne_true nofun
  | .tuple _ items => by
    rw [isOpen, allOpen_iff items]
    refine ⟨.tuple, fun h => ?_⟩
    cases h with
    | tuple h => exact h

theorem allOpen_iff : ∀ ps : List Pattern, allOpen ps = true ↔ ∀ p ∈ ps, p.Irrefutable
  | [] => iff_of_true rfl (by simp)
  | p :: ps => by
    rw [allOpen, Bool.and_eq_true, isOpen_iff p, allOpen_iff ps, List.forall_mem_cons]

end

theorem coveredTag?_eq_some {p : Pattern} {tag : Name} :
    p.coveredTag? = some tag ↔ p.Covers tag := by
  constructor
  · intro h
    cases p with
    | tag id name items =>
      rw [coveredTag?] at h
      split at h
      · next hopen =>
        obtain rfl := Option.some.inj h
        exact ⟨id, items, rfl, (allOpen_iff items).mp hopen⟩
      · cases h
    | _ => cases h
  · rintro ⟨id, items, rfl, hitems⟩
    rw [coveredTag?, if_pos ((allOpen_iff items).mpr hitems)]

instance (p : Pattern) (tag : Name) : Decidable (p.Covers tag) :=
  decidable_of_iff (p.coveredTag? = some tag) coveredTag?_eq_some

/-- Patterns match the components of values, each of its type, when each by itself matches the values
of its type. -/
theorem forall₂_matches {items : List Pattern} {vs : List (Value α)} {ts : List TypeTree}
    (hfits : List.Forall₂ (Fits D) items ts) (hvs : List.Forall₂ (Value.OfType D A) vs ts)
    (h : ∀ p ∈ items, ∀ t v, p.Fits D t → v.OfType D A t → p.Matches A v) :
    List.Forall₂ (Matches A) items vs := by
  induction hfits generalizing vs with
  | nil =>
    cases hvs
    exact .nil
  | cons hp _ ih =>
    cases hvs with
    | cons hv hvs =>
      obtain ⟨hhead, htail⟩ := List.forall_mem_cons.mp h
      exact .cons (hhead _ _ hp hv) (ih hvs htail)

theorem Irrefutable.matches {p : Pattern} {t : TypeTree} {v : Value α} (h : p.Irrefutable)
    (hfits : p.Fits D t) (hv : v.OfType D A t) : p.Matches A v := by
  induction h generalizing t v with
  | wildcard => exact .wildcard
  | binding => exact .binding
  | tuple _ ih =>
    cases hfits with
    | tuple hitems =>
      obtain ⟨vs, rfl, hvs⟩ := hv.of_tuple
      exact .tuple (forall₂_matches hitems hvs fun q hq t v => ih q hq)

/-- An arm that covers a tag matches what the tag builds. -/
theorem Covers.matches {p : Pattern} {tag : Name} {q : ProductDecl} {args : List TypeTree}
    {fields : List (Value α)} (h : p.Covers tag) (hfits : p.Fits D (q.result tag args))
    (hproduct : D.product? tag = some q)
    (hfields : List.Forall₂ (Value.OfType D A) fields (q.fieldsAt var args)) :
    p.Matches A (.built tag fields) := by
  obtain ⟨id, items, rfl, hitems⟩ := h
  generalize ht : q.result tag args = t at hfits
  cases hfits with
  | @tag _ _ _ q' args' hproduct' _ hparts =>
    obtain rfl := Option.some.inj (hproduct.symm.trans hproduct')
    obtain rfl := ProductDecl.args_eq_of_result ht
    exact .tag (forall₂_matches hparts hfields fun r hr t v => (hitems r hr).matches)

end Pattern

/-! ## Declared tags -/

namespace TypeDecl

/-- The kind of type that a declaration introduces. -/
def kind (d : TypeDecl) : DeclKind :=
  match d.body with
  | .product _ => .product
  | .sum _ => .sum

/-- What values of a declared type are built by, with the number of fields: the tags of a sum, or a
product itself. -/
def constructors (d : TypeDecl) : List (Name × Nat) :=
  match d.body with
  | .product fields => [(d.name, fields.length)]
  | .sum tags => tags.map fun tag => (tag.name, tag.fields.length)

end TypeDecl

/-- A tag with a wildcard for each of its fields, as it is shown. -/
def constructorText (c : Name × Nat) : String :=
  if c.2 = 0 then c.1 else s!"{c.1}(" ++ ", ".intercalate (List.replicate c.2 "_") ++ ")"

namespace Store

variable {st : Store} {d : TypeDecl} {types : List TypeDecl} {name : Name} {p : ProductDecl}
  {patterns : List Pattern} {t : TypeTree}

/-- The types that build the values of a declared type, in the order of the declaration. -/
def constructorIds (st : Store) (kind : DeclKind) (name : Name) : List TypeId :=
  match kind with
  | .product => (st.declared? name).toList
  | .sum => ((st.declared? name).bind st.sumTags?).getD []

/-- A type of the store is a constructor of a declared type. -/
structure IsConstructor (st : Store) (kind : DeclKind) (type : Name) (c : Name × Nat) (id : TypeId) :
    Prop where
  declares : ∃ params, st.Declares c.1 id .product params
  fields : (st.productBody? id).map (·.fields.length) = some c.2
  siblings : st.siblingTags id = st.constructorIds kind type
  result : ∀ p, st.declarations.product? c.1 = some p → ∀ args,
    p.result c.1 args = .mk (kind.shape type args)

/-- The constructors of a declared type are those that are written, in that order. -/
theorem Realizes.constructors (h : st.Realizes d) :
    List.Forall₂ (st.IsConstructor d.kind d.name) d.constructors
      (st.constructorIds d.kind d.name) := by
  cases h with
  | @product fields params ty hbody _ hproduct =>
    obtain ⟨hd, types, htypes, hlen⟩ := hproduct
    have hids : st.constructorIds .product d.name = [ty] := by
      rw [constructorIds, hd.declared]
      rfl
    rw [TypeDecl.kind, TypeDecl.constructors, hbody]
    dsimp only
    rw [hids]
    refine .cons ⟨⟨params, hd⟩, ?_, ?_, fun p hp args => ?_⟩ .nil
    · rw [htypes, Option.map_some, hlen]
    · rw [hids, siblingTags, htypes]
      rfl
    · rw [hd.product? htypes] at hp
      rw [← Option.some.inj hp]
      rfl
  | @sum tags params ids ty hbody _ hd htags hproducts =>
    have hids : st.constructorIds .sum d.name = ids := by
      rw [constructorIds, hd.declared, Option.bind_some, htags]
      rfl
    rw [TypeDecl.kind, TypeDecl.constructors, hbody]
    dsimp only
    rw [hids, List.forall₂_map_left_iff]
    refine hproducts.imp ?_
    rintro tag id ⟨htag, types, htypes, hlen⟩
    refine ⟨⟨params, htag⟩, ?_, ?_, fun p hp args => ?_⟩
    · rw [htypes, Option.map_some, hlen]
    · rw [hids, siblingTags, htypes]
      show (st.sumTags? ty).getD [] = ids
      rw [htags]
      rfl
    · have hname : st.nominalName? ty = some d.name := by
        rw [nominalName?, hd.shape]
        rfl
      rw [htag.product? htypes] at hp
      rw [← Option.some.inj hp, ProductDecl.result, readProduct, Option.bind_some, hname]
      rfl

/-- The types of a store are the written ones and no others. -/
structure Registers (st : Store) (types : List TypeDecl) : Prop where
  coherent : st.Coherent
  realizes : ∀ d ∈ types, st.Realizes d
  names : ∀ name ty, st.declared? name = some ty → ∃ d ∈ types, name ∈ d.names

/-- A product of the declarations is a constructor of a written type. -/
theorem Registers.exists_constructor (h : st.Registers types)
    (hp : st.declarations.product? name = some p) :
    ∃ d ∈ types, ∃ c ∈ d.constructors, ∃ id ∈ st.constructorIds d.kind d.name, c.1 = name ∧
      st.IsConstructor d.kind d.name c id := by
  obtain ⟨ty, params, body, hdecl, -, -⟩ := exists_of_product? h.coherent hp
  obtain ⟨d, hd, hname⟩ := h.names name ty hdecl.declared
  obtain ⟨c, hc, rfl⟩ : ∃ c ∈ d.constructors, c.1 = name := by
    rw [TypeDecl.names] at hname
    rw [TypeDecl.constructors]
    cases h.realizes d hd with
    | product hbody _ _ =>
      rw [hbody] at hname ⊢
      exact ⟨_, List.mem_cons_self, (List.mem_singleton.mp hname).symm⟩
    | sum hbody _ hsum _ _ =>
      rw [hbody] at hname ⊢
      rcases List.mem_cons.mp hname with rfl | hname
      · cases (hdecl.unique hsum).2.1
      · obtain ⟨tag, htag, rfl⟩ := List.mem_map.mp hname
        exact ⟨_, List.mem_map_of_mem htag, rfl⟩
  obtain ⟨id, hid, hconstructor⟩ := exists_mem_of_forall₂ (h.realizes d hd).constructors.flip hc
  exact ⟨d, hd, c, hc, id, hid, rfl, hconstructor⟩

/-! ## Open cases -/

theorem IsConstructor.nominalName? {kind : DeclKind} {type : Name} {c : Name × Nat} {id : TypeId}
    (h : st.IsConstructor kind type c id) : st.nominalName? id = some c.1 := by
  obtain ⟨params, hd⟩ := h.declares
  rw [Store.nominalName?, hd.shape]
  rfl

theorem IsConstructor.tagPatternText {kind : DeclKind} {type : Name} {c : Name × Nat} {id : TypeId}
    (h : st.IsConstructor kind type c id) : st.tagPatternText id c.1 = constructorText c := by
  obtain ⟨name, arity⟩ := c
  rw [Store.tagPatternText, h.fields, constructorText]
  cases arity <;> rfl

theorem contains_coveredTags {tag : Name} :
    (patterns.filterMap Pattern.coveredTag?).contains tag = true ↔ ∃ p ∈ patterns, p.Covers tag := by
  simp only [List.contains_iff_mem, List.mem_filterMap, Pattern.coveredTag?_eq_some]

/-- The open cases of a match on tags are the constructors of the type that no arm covers. -/
theorem missingTags_eq {kind : DeclKind} {type : Name} {cs : List (Name × Nat)} {c : Name × Nat}
    {id : TypeId} (hc : st.IsConstructor kind type c id)
    (hcs : List.Forall₂ (st.IsConstructor kind type) cs (st.constructorIds kind type)) :
    st.missingTags c.1 patterns =
      (cs.filter fun c => ∀ p ∈ patterns, ¬ p.Covers c.1).map constructorText := by
  obtain ⟨params, hd⟩ := hc.declares
  unfold missingTags
  simp only [hd.declared, hc.siblings]
  generalize st.constructorIds kind type = ids at hcs
  induction hcs with
  | nil => rfl
  | @cons c id cs ids hfirst _ ih =>
    rw [List.filterMap_cons, List.filter_cons, ih, hfirst.nominalName?, Option.bind_eq_bind,
      Option.bind_some]
    by_cases hcovered : ∃ p ∈ patterns, p.Covers c.1
    · have hnot : ¬ ∀ p ∈ patterns, ¬ p.Covers c.1 := by simpa using hcovered
      rw [if_pos (contains_coveredTags.mpr hcovered), if_neg (by simpa using hnot)]
    · have hopen : ∀ p ∈ patterns, ¬ p.Covers c.1 := by simpa using hcovered
      rw [if_neg fun h => hcovered (contains_coveredTags.mp h), if_pos (by simpa using hopen),
        List.map_cons, ← hfirst.tagPatternText]

/-- All tag patterns that fit one type are of the same declaration. -/
theorem Registers.missingTags_eq (h : st.Registers types) {id : PatternId} {items : List Pattern}
    (hfits : (Pattern.tag id name items).Fits st.declarations t) :
    ∃ d ∈ types, ∃ args, t = .mk (d.kind.shape d.name args) ∧ ∀ patterns,
      st.missingTags name patterns =
        (d.constructors.filter fun c => ∀ p ∈ patterns, ¬ p.Covers c.1).map constructorText := by
  cases hfits with
  | @tag _ _ _ p args hproduct _ _ =>
    obtain ⟨d, hd, c, -, id, -, rfl, hc⟩ := h.exists_constructor hproduct
    exact ⟨d, hd, args, hc.result p hproduct args, fun patterns =>
      Store.missingTags_eq hc (h.realizes d hd).constructors⟩

/-- The constructors of a written type are settled by its kind and name. -/
theorem Realizes.constructors_unique {d' : TypeDecl} (h : st.Realizes d) (h' : st.Realizes d')
    (hkind : d.kind = d'.kind) (hname : d.name = d'.name) : d.constructors = d'.constructors := by
  have hcs := h.constructors
  have hcs' := h'.constructors
  rw [← hkind, ← hname] at hcs'
  generalize st.constructorIds d.kind d.name = ids at hcs hcs'
  generalize d.constructors = cs at hcs ⊢
  generalize d'.constructors = cs' at hcs' ⊢
  induction hcs generalizing cs' with
  | nil =>
    cases hcs'
    rfl
  | cons hc _ ih =>
    cases hcs' with
    | cons hc' hrest =>
      have hsame := Option.some.inj (hc.nominalName?.symm.trans hc'.nominalName?)
      have harity := Option.some.inj (hc.fields.symm.trans hc'.fields)
      rw [Prod.ext hsame harity, ih _ hrest]

/-- A value of a declared type is built by one of its constructors. -/
theorem Registers.mem_constructors (h : st.Registers types) (hd : d ∈ types)
    {args : List TypeTree} (hp : st.declarations.product? name = some p)
    (hresult : p.result name args = .mk (d.kind.shape d.name args)) :
    ∃ c ∈ d.constructors, c.1 = name := by
  obtain ⟨d', hd', c, hc, id, -, rfl, hconstructor⟩ := h.exists_constructor hp
  rw [hconstructor.result p hp] at hresult
  obtain ⟨hkind, hname, -⟩ := DeclKind.shape_inj (TypeTree.mk.inj hresult)
  rw [(h.realizes d' hd').constructors_unique (h.realizes d hd) hkind hname] at hc
  exact ⟨c, hc, rfl⟩

/-! ## Complete matches -/

theorem missingPatterns_of_catchAll (h : ∃ p ∈ patterns, p.isCatchAll = true) :
    st.missingPatterns patterns = [] := by
  rw [missingPatterns, if_pos (List.any_eq_true.mpr h)]

/-- What is open in a match without a pattern that matches everything, if there are tags. -/
theorem missingPatterns_of_tag (st : Store) (hcatch : ∀ p ∈ patterns, p.isCatchAll = false)
    (htag : ∃ p ∈ patterns, p.tagName?.isSome = true) :
    ∃ id first items, Pattern.tag id first items ∈ patterns ∧
      st.missingPatterns patterns = st.missingTags first patterns := by
  have hnone : patterns.any Pattern.isCatchAll = false := by simpa using hcatch
  obtain ⟨first, hfirst⟩ : ∃ first, patterns.findSome? Pattern.tagName? = some first := by
    rw [← Option.isSome_iff_exists, List.isSome_findSome?, List.any_eq_true]
    exact htag
  obtain ⟨p, hp, hname⟩ := List.exists_of_findSome?_eq_some hfirst
  cases p with
  | tag id name items =>
    obtain rfl := Option.some.inj hname
    exact ⟨id, name, items, hp, by rw [missingPatterns, hnone, hfirst]; rfl⟩
  | _ => cases hname

/-- What is open in a match that has neither tags nor a pattern that matches everything. -/
theorem missingPatterns_of_no_tag (hcatch : ∀ p ∈ patterns, p.isCatchAll = false)
    (htag : ∀ p ∈ patterns, p.tagName? = none) :
    st.missingPatterns patterns =
      if ∃ p ∈ patterns, p.bool?.isSome = true then
        ([true, false].filter fun b => ∀ p ∈ patterns, p.bool? ≠ some b).map toString
      else if ∃ p ∈ patterns, p.coversSingleForm = true then [] else ["_"] := by
  have hnone : patterns.any Pattern.isCatchAll = false := by simpa using hcatch
  have hbools : (!(patterns.filterMap Pattern.bool?).isEmpty) = true ↔
      ∃ p ∈ patterns, p.bool?.isSome = true := by
    simp [Option.isSome_iff_ne_none]
  have hmissing : ∀ b, (!(patterns.filterMap Pattern.bool?).contains b) =
      decide (∀ p ∈ patterns, p.bool? ≠ some b) := by
    intro b
    rw [Bool.eq_iff_iff]
    simp
  rw [missingPatterns, hnone, List.findSome?_eq_none_iff.mpr htag]
  simp only [hbools, hmissing, List.any_eq_true, Bool.false_eq_true, if_false]

/-- The cases of a list of patterns. -/
theorem cases_of_patterns (patterns : List Pattern) :
    (∃ p ∈ patterns, p.isCatchAll = true) ∨
      (∀ p ∈ patterns, p.isCatchAll = false) ∧ ((∃ p ∈ patterns, p.tagName?.isSome = true) ∨
        ∀ p ∈ patterns, p.tagName? = none) := by
  by_cases hcatch : ∃ p ∈ patterns, p.isCatchAll = true
  · exact .inl hcatch
  · refine .inr ⟨by simpa using hcatch, ?_⟩
    by_cases htag : ∃ p ∈ patterns, p.tagName?.isSome = true
    · exact .inl htag
    · exact .inr (by simpa using htag)

/-- A pattern that asks for a truth value matches it. -/
theorem matches_of_bool? {p : Pattern} {value : Bool} (h : p.bool? = some value) :
    p.Matches A (.bool value) := by
  unfold Pattern.bool? at h
  split at h
  · obtain rfl := Option.some.inj h
    exact .literal
  · cases h

theorem eq_bool_of_fits {p : Pattern} (h : p.bool?.isSome = true) (hfits : p.Fits D t) :
    t = prim .bool := by
  unfold Pattern.bool? at h
  split at h
  · cases hfits with
    | literal hliteral =>
      cases hliteral
      rfl
  · cases h

/-- A pattern for the only form of a type matches all values of the type. -/
theorem matches_of_coversSingleForm {p : Pattern} {v : Value α} (h : p.coversSingleForm = true)
    (hfits : p.Fits D t) (hv : v.OfType D A t) : p.Matches A v := by
  unfold Pattern.coversSingleForm at h
  split at h
  · cases hfits with
    | literal hliteral =>
      cases hliteral
      have hunit : v.OfType D A (TypeTree.tuple []) := hv
      obtain ⟨vs, rfl, hvs⟩ := hunit.of_tuple
      cases hvs
      exact .literal
  · next items =>
    exact (Pattern.Irrefutable.tuple ((Pattern.allOpen_iff items).mp h)).matches hfits hv
  · cases h

/-- A match on tags that leaves none open is complete. -/
theorem Registers.matches_of_missingTags (h : st.Registers types)
    (hfits : ∀ p ∈ patterns, p.Fits st.declarations t) {id : PatternId} {items : List Pattern}
    (hfirst : Pattern.tag id name items ∈ patterns) (hnone : st.missingTags name patterns = [])
    {v : Value α} (hv : v.OfType st.declarations A t) : ∃ p ∈ patterns, p.Matches A v := by
  obtain ⟨d, hd, args, ht, hmissing⟩ := h.missingTags_eq (hfits _ hfirst)
  rw [ht] at hv
  obtain ⟨tag, q, fields, rfl, hproduct, hresult, hfields⟩ := hv.of_declared
  obtain ⟨c, hc, rfl⟩ := h.mem_constructors hd hproduct hresult
  rw [hmissing, List.map_eq_nil_iff, List.filter_eq_nil_iff] at hnone
  obtain ⟨p, hp, hcovers⟩ : ∃ p ∈ patterns, p.Covers c.1 := by simpa using hnone c hc
  have hp_fits := hfits p hp
  rw [ht, ← hresult] at hp_fits
  exact ⟨p, hp, hcovers.matches hp_fits hproduct hfields⟩

/-- A match that leaves no case open is complete. -/
theorem Registers.matches_of_missingPatterns (h : st.Registers types)
    (hfits : ∀ p ∈ patterns, p.Fits st.declarations t) (hnone : st.missingPatterns patterns = [])
    {v : Value α} (hv : v.OfType st.declarations A t) : ∃ p ∈ patterns, p.Matches A v := by
  rcases cases_of_patterns patterns with ⟨p, hp, hall⟩ | ⟨hcatch, htag | htag⟩
  · refine ⟨p, hp, ?_⟩
    cases p with
    | wildcard id => exact .wildcard
    | binding id name => exact .binding
    | _ => cases hall
  · obtain ⟨id, first, items, hfirst, heq⟩ := missingPatterns_of_tag st hcatch htag
    exact h.matches_of_missingTags hfits hfirst (heq.symm.trans hnone) hv
  · rw [missingPatterns_of_no_tag hcatch htag] at hnone
    split at hnone
    · next hbool =>
      obtain ⟨p, hp, hsome⟩ := hbool
      obtain rfl := eq_bool_of_fits hsome (hfits p hp)
      obtain ⟨value, rfl⟩ := hv.of_bool
      rw [List.map_eq_nil_iff, List.filter_eq_nil_iff] at hnone
      obtain ⟨q, hq, hvalue⟩ : ∃ q ∈ patterns, q.bool? = some value := by
        simpa using hnone value (by cases value <;> simp)
      exact ⟨q, hq, matches_of_bool? hvalue⟩
    split at hnone
    · next hsingle =>
      obtain ⟨p, hp, hcovers⟩ := hsingle
      exact ⟨p, hp, matches_of_coversSingleForm hcovers (hfits p hp) hv⟩
    · cases hnone

/-- The order of the arms does not matter. -/
theorem Registers.missingPatterns_perm (h : st.Registers types)
    (hfits : ∀ p ∈ patterns, p.Fits st.declarations t) {others : List Pattern}
    (hperm : patterns.Perm others) : st.missingPatterns others = st.missingPatterns patterns := by
  have hmem : ∀ p, p ∈ others ↔ p ∈ patterns := fun p => hperm.mem_iff.symm
  rcases cases_of_patterns patterns with hall | ⟨hcatch, htag | htag⟩
  · rw [missingPatterns_of_catchAll hall,
      missingPatterns_of_catchAll (by simpa only [hmem] using hall)]
  · obtain ⟨id, first, items, hfirst, heq⟩ := missingPatterns_of_tag st hcatch htag
    have hcatch' : ∀ p ∈ others, p.isCatchAll = false := by simpa only [hmem] using hcatch
    obtain ⟨id', first', items', hfirst', heq'⟩ :=
      missingPatterns_of_tag st hcatch' (by simpa only [hmem] using htag)
    obtain ⟨d, hd, args, ht, hmissing⟩ := h.missingTags_eq (hfits _ hfirst)
    obtain ⟨d', hd', args', ht', hmissing'⟩ := h.missingTags_eq (hfits _ ((hmem _).mp hfirst'))
    -- both tags are of the declaration that the type names
    obtain ⟨hkind, hname, -⟩ := DeclKind.shape_inj (TypeTree.mk.inj (ht.symm.trans ht'))
    rw [heq, heq', hmissing, hmissing',
      (h.realizes d hd).constructors_unique (h.realizes d' hd') hkind hname]
    simp only [hmem]
  · rw [missingPatterns_of_no_tag hcatch htag, missingPatterns_of_no_tag
      (by simpa only [hmem] using hcatch) (by simpa only [hmem] using htag)]
    simp only [hmem]

/-- A tag without fields is a pattern for a sum without parameters. -/
theorem Realizes.fits_tag {tags : List TagDecl} {tag : TagDecl} (h : st.Realizes d)
    (hbody : d.body = .sum tags) (hparams : d.params = []) (hmem : tag ∈ tags)
    (hfields : tag.fields = []) (id : PatternId) :
    (Pattern.tag id tag.name []).Fits st.declarations (.mk (.sum d.name [])) := by
  cases h with
  | product hproduct _ _ => cases hproduct.symm.trans hbody
  | @sum written params ids ty hwritten hnames hd htags hproducts =>
    obtain rfl := TypeDeclBody.sum.inj (hbody.symm.trans hwritten)
    rw [hparams] at hnames
    cases hnames
    obtain ⟨ty', -, htag, types, htypes, hlen⟩ := exists_mem_of_forall₂ hproducts.flip hmem
    rw [hfields, List.length_nil, List.length_eq_zero_iff] at hlen
    subst hlen
    have hname : st.nominalName? ty = some d.name := by
      rw [nominalName?, hd.shape]
      rfl
    have hproduct := htag.product? htypes
    have hresult : (st.readProduct [] ⟨[], tag.fields.map (·.name), some ty⟩).result tag.name [] =
        .mk (.sum d.name []) := by
      rw [ProductDecl.result, readProduct, Option.bind_some, hname]
    rw [← hresult]
    exact .tag hproduct rfl .nil
end Store

namespace CheckM

variable {s : CheckState}

/-- The types of a module that are registered without an error. -/
theorem registers_registerTypes (types : List TypeDecl) (h : s.store.Declaring [])
    (hclean : (registerTypes types s).2.Clean) :
    (registerTypes types s).2.store.Registers types := by
  obtain ⟨hrealizes, hnames⟩ := ends_registerTypes_clean types h hclean
  exact ⟨(ends_registerTypes types h).2.1.coherent, hrealizes, hnames⟩

/-- Let the types of a module be registered without an error, and let all patterns of a match fit one
type.  If no case is reported as open, every value of the type is matched by a pattern.  If a tag is
matched and no pattern matches everything, the type is that of a declaration of the module, and the
open cases are its tags, or itself if it is a product, which no arm covers, in the order of the
declaration.  The open cases do not depend on the order of the arms. -/
theorem missingPatterns_sound (s : CheckState) (types : List TypeDecl) (h : s.store.Declaring [])
    (hclean : (registerTypes types s).2.Clean) (patterns : List Pattern) (t : TypeTree)
    (hfits : ∀ p ∈ patterns, p.Fits (registerTypes types s).2.store.declarations t) :
    let st := (registerTypes types s).2.store
    (st.missingPatterns patterns = [] → ∀ {α : Type} (A : Atoms α) (v : Value α),
      v.OfType st.declarations A t → ∃ p ∈ patterns, p.Matches A v) ∧
    ((∃ p ∈ patterns, p.tagName?.isSome = true) → (∀ p ∈ patterns, p.isCatchAll = false) →
      ∃ d ∈ types, ∃ args, t = .mk (d.kind.shape d.name args) ∧ st.missingPatterns patterns =
        (d.constructors.filter fun c => ∀ p ∈ patterns, ¬ p.Covers c.1).map constructorText) ∧
    ∀ others, patterns.Perm others → st.missingPatterns others = st.missingPatterns patterns := by
  intro st
  have hst : st.Registers types := registers_registerTypes types h hclean
  refine ⟨fun hnone α A v hv => hst.matches_of_missingPatterns hfits hnone hv,
    fun htag hcatch => ?_, fun others => hst.missingPatterns_perm hfits⟩
  obtain ⟨id, first, items, hfirst, heq⟩ := missingPatterns_of_tag st hcatch htag
  obtain ⟨d, hd, args, ht, hmissing⟩ := hst.missingTags_eq (hfits _ hfirst)
  exact ⟨d, hd, args, ht, heq.trans (hmissing patterns)⟩

/-- A sum of two tags without fields. -/
def trafficLight : TypeDecl :=
  ⟨"Light", [], .sum [⟨"Red", [], Span.none⟩, ⟨"Green", [], Span.none⟩], Span.none⟩

/-- The state after the lights are registered. -/
def lightsRegistered : CheckState :=
  (registerTypes [trafficLight] { store := Store.new, traits := {}, log := {} }).2

theorem clean_lightsRegistered : lightsRegistered.Clean :=
  clean_registerTypes_enumeration declaring_new rfl rfl (by simp) (by decide)

/-- A tag of the lights is a pattern for them. -/
theorem fits_light {name : Name} (hmem : name ∈ ["Red", "Green"]) (id : PatternId) :
    (Pattern.tag id name []).Fits lightsRegistered.store.declarations (.mk (.sum "Light" [])) := by
  have hlight := (registers_registerTypes [trafficLight] declaring_new
    clean_lightsRegistered).realizes trafficLight (List.mem_singleton_self _)
  have hmem : (⟨name, [], Span.none⟩ : TagDecl) ∈
      [⟨"Red", [], Span.none⟩, ⟨"Green", [], Span.none⟩] := by simpa using hmem
  exact hlight.fits_tag rfl rfl hmem rfl id

/-- The light without an arm is reported, and two arms match every light. -/
theorem missingPatterns_sound_trafficLight :
    lightsRegistered.store.missingPatterns [.tag 0 "Red" []] = ["Green"] ∧
      ∀ {α : Type} (A : Atoms α) (v : Value α),
        v.OfType lightsRegistered.store.declarations A (.mk (.sum "Light" [])) →
          ∃ p ∈ [Pattern.tag 0 "Green" [], Pattern.tag 1 "Red" []], p.Matches A v := by
  have hone := missingPatterns_sound _ [trafficLight] declaring_new clean_lightsRegistered
    [.tag 0 "Red" []] (.mk (.sum "Light" []))
    (List.forall_mem_singleton.mpr (fits_light (by simp) 0))
  have hboth := missingPatterns_sound _ [trafficLight] declaring_new clean_lightsRegistered
    [.tag 0 "Green" [], .tag 1 "Red" []] (.mk (.sum "Light" []))
    (List.forall_mem_cons.mpr ⟨fits_light (by simp) 0,
      List.forall_mem_singleton.mpr (fits_light (by simp) 1)⟩)
  refine ⟨?_, hboth.1 ?_⟩
  · obtain ⟨d, hd, args, -, heq⟩ := hone.2.1 ⟨_, List.mem_singleton_self _, rfl⟩
      (by simp [Pattern.isCatchAll])
    obtain rfl := List.mem_singleton.mp hd
    refine heq.trans ?_
    decide +kernel
  · obtain ⟨d, hd, args, -, heq⟩ := hboth.2.1 ⟨_, List.mem_cons_self, rfl⟩
      (by simp [Pattern.isCatchAll])
    obtain rfl := List.mem_singleton.mp hd
    refine heq.trans ?_
    decide +kernel
end CheckM

end ConstraintTyping
