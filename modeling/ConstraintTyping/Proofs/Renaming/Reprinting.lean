import ConstraintTyping.Proofs.Renaming.Printing

/-!
# Names in printed types

The text of a type is its spelling under names that tell its variables apart: a named variable has
its own name, a fresh one a letter that is neither the name of a variable in the type nor the letter
of another one.  Which fresh variables they are does not show: renaming them to other fresh ones,
different ones to different ones, leaves the text as it is.
-/

namespace ConstraintTyping

open TypeTree

namespace Store

variable {st : Store} {ty v w : TypeId} {names : VarNames} {x : VarIdent}

/-! ## Variables of a printed type -/

/-- The variables of a type that have no name of their own. -/
def freshVars (st : Store) (ty : TypeId) : List TypeId :=
  (st.collectVars ty).filter fun v => (st.writtenName? v).isNone

theorem mem_freshVars (hty : ty < st.size) : v ∈ st.freshVars ty ↔
    ∃ n, st.shape v = .var (.fresh n) ∧ (st.tree ty).Occurs (.fresh n) := by
  rw [freshVars, List.mem_filter, mem_collectVars hty]
  constructor
  · rintro ⟨⟨x, hv, hx⟩, hnone⟩
    cases x with
    | named name => simp [writtenName?, hv] at hnone
    | fresh n => exact ⟨n, hv, hx⟩
  · rintro ⟨n, hv, hn⟩
    exact ⟨⟨_, hv, hn⟩, by rw [writtenName?, hv]; rfl⟩

theorem mem_reserved_forTypes {types : List TypeId} {name : Name} (hty : ty ∈ types)
    (hv : v ∈ st.collectVars ty) (hname : st.shape v = .var (.named name)) :
    name ∈ (VarNames.forTypes st types).reserved :=
  List.mem_flatMap.mpr ⟨ty, hty, List.mem_filterMap.mpr ⟨v, hv, by rw [hname]⟩⟩

/-- The names of the variables of a type, once it is printed. -/
def printedNames (st : Store) (ty : TypeId) : VarNames :=
  (st.printWith ty (VarNames.forTypes st [ty])).2

theorem leads_printedNames (st : Store) (ty : TypeId) :
    (VarNames.forTypes st [ty]).Leads (st.printedNames ty) :=
  (tandem_printWith _ ty).2.1

theorem prints_print (st : Store) (ty : TypeId) : st.Prints (st.printedNames ty) ty (st.print ty) :=
  ((tandem_printWith (VarNames.forTypes st [ty]) ty).2.2 _ (.refl _)).2

/-- A variable of a printed type has its own name, or else a letter that is handed out to no other
variable and that is not taken. -/
theorem nameIn_cases (hty : ty < st.size) (hv : v ∈ st.collectVars ty) :
    (∃ name, st.shape v = .var (.named name) ∧ st.nameIn (st.printedNames ty) v = name) ∨
    (∃ k n, st.shape v = .var (.fresh k) ∧ (st.printedNames ty).assigned.lookup v =
      some (letterName n) ∧ st.nameIn (st.printedNames ty) v = letterName n) := by
  obtain ⟨x, hshape, hx⟩ := (mem_collectVars hty).mp hv
  cases x with
  | named name => exact .inl ⟨name, hshape, by rw [nameIn, writtenName?, hshape]; rfl⟩
  | fresh k =>
    obtain ⟨name, hname⟩ := (prints_print st ty).named v k hshape hx
    have hapart := (leads_printedNames st ty).apart (VarNames.apart_forTypes st [ty])
    obtain ⟨n, -, rfl⟩ : ∃ n < _, name = letterName n :=
      hapart.letters _ (VarNames.mem_assigned hname)
    exact .inr ⟨k, n, hshape, hname, by rw [nameIn, writtenName?, hshape, hname]; rfl⟩

/-- No letter that is handed out is the name of a variable in the type. -/
theorem ne_of_lookup {name letter : Name} (hv : v ∈ st.collectVars ty)
    (hname : st.shape v = .var (.named name))
    (hletter : (st.printedNames ty).assigned.lookup w = some letter) : name ≠ letter := by
  rintro rfl
  have hleads := leads_printedNames st ty
  have hapart := hleads.apart (VarNames.apart_forTypes st [ty])
  refine hapart.free _ (VarNames.mem_assigned hletter) ?_
  rw [hleads.reserved_eq]
  exact mem_reserved_forTypes (List.mem_singleton_self ty) hv hname

/-- Different variables of a type are printed under different names. -/
theorem injOn_nameIn (hty : ty < st.size) :
    Set.InjOn (st.nameIn (st.printedNames ty)) { v | v ∈ st.collectVars ty } := by
  intro v hv w hw heq
  have hapart := (leads_printedNames st ty).apart (VarNames.apart_forTypes st [ty])
  rcases nameIn_cases hty hv with ⟨name, hshape, hname⟩ | ⟨_, n, -, hletter, hname⟩ <;>
    rcases nameIn_cases hty hw with ⟨name', hshape', hname'⟩ | ⟨_, n', -, hletter', hname'⟩ <;>
    rw [hname, hname'] at heq
  · exact eq_of_shape_var hshape (heq ▸ hshape')
  · exact absurd heq (ne_of_lookup hv hshape hletter')
  · exact absurd heq.symm (ne_of_lookup hw hshape' hletter)
  · exact hapart.eq_of_lookup hletter (heq ▸ hletter')

/-! ## Renaming fresh variables -/

/-- New fresh variables in the places of those of a type, different ones for different ones. -/
structure RenamesFresh (st : Store) (ty : TypeId) (r : TypeId → TypeId) : Prop where
  fresh : ∀ v ∈ st.freshVars ty, ∃ n, st.shape (r v) = .var (.fresh n)
  injOn : Set.InjOn r { v | v ∈ st.freshVars ty }

/-- Where a variable of the store goes when the fresh variables of a type are renamed. -/
def renamed (st : Store) (ty : TypeId) (r : TypeId → TypeId) (v : TypeId) : TypeId :=
  if v ∈ st.freshVars ty then r v else v

theorem lookup_renamed (st : Store) (ty : TypeId) (r : TypeId → TypeId) (v : TypeId) :
    (((st.freshVars ty).map fun v => (v, r v)).lookup v).getD v = st.renamed ty r v := by
  unfold renamed
  split
  · next hmem => rw [List.lookup_graph r hmem, Option.getD_some]
  · next hmem =>
    rw [List.lookup_eq_none_iff.mpr fun p hp => ?_, Option.getD_none]
    obtain ⟨w, hw, rfl⟩ := List.mem_map.mp hp
    exact bne_iff_ne.mpr (show v ≠ w from fun h => hmem (h ▸ hw))

/-- A renaming of fresh variables is one replacement of variables. -/
theorem substituteAll_freshVars (r : TypeId → TypeId) : StoreM.substituteAll
    ((st.freshVars ty).map fun v => (v, r v)) ty st = StoreM.mapVars (st.renamed ty r) ty st := by
  unfold StoreM.substituteAll
  split
  · next hempty =>
    have hnone : st.freshVars ty = [] := by simpa using hempty
    exact (StoreM.mapVars_eq_self st ty fun v _ _ _ => by simp [renamed, hnone]).symm
  · rw [funext (lookup_renamed st ty r)]

/-- What a variable is called after its type went elsewhere. -/
noncomputable def identAfter (st : Store) (f : TypeId → TypeId) (x : VarIdent) : VarIdent :=
  ((st.readVars f x).shape.varIdent?).getD x

theorem identAfter_eq {f : TypeId → TypeId} {y : VarIdent} (hv : st.shape v = .var x)
    (hf : st.shape (f v) = .var y) : st.identAfter f x = y := by
  rw [identAfter, readVars_eq hv, tree_of_var hf]
  rfl

end Store

/-- The same name, or no name on either side. -/
inductive VarIdent.SameSort : VarIdent → VarIdent → Prop
  | named (name : Name) : SameSort (.named name) (.named name)
  | fresh (m n : Nat) : SameSort (.fresh m) (.fresh n)

theorem VarIdent.SameSort.refl (x : VarIdent) : x.SameSort x := by
  cases x with
  | named name => exact .named name
  | fresh n => exact .fresh n n

namespace Store.RenamesFresh

open VarIdent

variable {st : Store} {ty v w : TypeId} {x y : VarIdent} {r : TypeId → TypeId}
  (h : st.RenamesFresh ty r)

include h

theorem exists_shape_renamed (hty : ty < st.size) (hv : st.shape v = .var x) :
    ∃ y, st.shape (st.renamed ty r v) = .var y ∧ x.SameSort y := by
  unfold renamed
  split
  · next hmem =>
    obtain ⟨m, hm, -⟩ := (mem_freshVars hty).mp hmem
    obtain ⟨n, hn⟩ := h.fresh v hmem
    obtain rfl := Shape.var.inj (hv.symm.trans hm)
    exact ⟨.fresh n, hn, .fresh m n⟩
  · exact ⟨x, hv, .refl x⟩

theorem sameSort_identAfter (hty : ty < st.size) (hx : (st.tree ty).Occurs x) :
    x.SameSort (st.identAfter (st.renamed ty r) x) := by
  obtain ⟨v, hv⟩ := exists_var_of_occurs hx
  obtain ⟨y, hy, hsame⟩ := h.exists_shape_renamed hty hv
  exact identAfter_eq hv hy ▸ hsame

theorem injOn_identAfter (hty : ty < st.size) :
    Set.InjOn (st.identAfter (st.renamed ty r)) { x | (st.tree ty).Occurs x } := by
  intro x hx y hy hxy
  obtain ⟨v, hv⟩ := exists_var_of_occurs hx
  obtain ⟨w, hw⟩ := exists_var_of_occurs hy
  obtain ⟨x', hx', hsame⟩ := h.exists_shape_renamed hty hv
  obtain ⟨y', hy', hsame'⟩ := h.exists_shape_renamed hty hw
  rw [identAfter_eq hv hx', identAfter_eq hw hy'] at hxy
  subst hxy
  have heq := eq_of_shape_var hx' hy'
  cases hsame with
  | named name =>
    cases hsame'
    rfl
  | fresh m n =>
    cases hsame' with
    | fresh m' =>
    have hmem := (mem_freshVars hty).mpr ⟨m, hv, hx⟩
    have hmem' := (mem_freshVars hty).mpr ⟨m', hw, hy⟩
    rw [renamed, renamed, if_pos hmem, if_pos hmem'] at heq
    obtain rfl := h.injOn hmem hmem' heq
    exact Shape.var.inj (hv.symm.trans hw)

/-- The renaming of variables that replaces fresh ones by fresh ones. -/
noncomputable def toRenaming (hty : ty < st.size) : Renaming where
  name := st.identAfter (st.renamed ty r)
  dom := { x | (st.tree ty).Occurs x }
  injOn := h.injOn_identAfter hty

theorem plain (hty : ty < st.size) : (h.toRenaming hty).Plain where
  named {name} hx := by
    have hsame := h.sameSort_identAfter hty hx
    show st.identAfter _ _ = _
    generalize st.identAfter _ _ = y at hsame ⊢
    cases hsame
    rfl
  fresh {n} hx := by
    have hsame := h.sameSort_identAfter hty hx
    show ∃ m, st.identAfter _ _ = _
    generalize st.identAfter _ _ = y at hsame ⊢
    cases hsame
    exact ⟨_, rfl⟩

/-- A type and the type with its fresh variables renamed are alike. -/
theorem alike (hst : st.Reachable) (hty : ty < st.size) :
    let renamed := StoreM.mapVars (st.renamed ty r) ty st
    (h.toRenaming hty).Alike (st, renamed.2) ty renamed.1 := by
  have hvars : ∀ v, st.isVar v = true → st.renamed ty r v < st.size ∧
      st.bare (st.renamed ty r v) = st.renamed ty r v := by
    intro v hv
    obtain ⟨x, hx⟩ := Shape.isVar_iff.mp hv
    obtain ⟨y, hy, -⟩ := h.exists_shape_renamed hty hx
    exact ⟨lt_size_of_shape_var hy, bare_of_not_qualified (by rw [hy]; rfl)⟩
  obtain ⟨hlt, htree, hquals⟩ :=
    (StoreM.yields_mapVars_chain hst.wellQualified hvars .refl hty).result
  refine ⟨hty, hlt, hquals, htree.trans (TypeTree.subst_congr fun x hx => ?_), fun x hx => hx⟩
  obtain ⟨v, hv⟩ := exists_var_of_occurs hx
  obtain ⟨y, hy, -⟩ := h.exists_shape_renamed hty hv
  rw [readVars_eq hv, tree_of_var hy]
  exact congrArg TypeTree.var (identAfter_eq hv hy).symm

/-- Renaming the fresh variables of a type does not change its text. -/
theorem print_eq (hst : st.Reachable) (hty : ty < st.size) :
    let renamed := StoreM.substituteAll ((st.freshVars ty).map fun v => (v, r v)) ty st
    renamed.2.print renamed.1 = st.print ty := by
  dsimp only
  rw [substituteAll_freshVars]
  exact (h.alike hst hty).print_eq (h.plain hty)

end Store.RenamesFresh

namespace Store

variable {st : Store} {ty : TypeId}

/-- **Printed names are faithful.**  A type prints as its spelling under names that differ for
different variables, its own for a named one and a letter for a fresh one; the search for a letter
always ends; and renaming fresh variables to fresh ones does not change the text. -/
theorem print_names_faithful (hst : st.Reachable) (hty : ty < st.size) :
    st.print ty = st.spell (st.nameIn (st.printedNames ty)) ty ∧
    (∀ v ∈ st.collectVars ty,
      (∃ name, st.shape v = .var (.named name) ∧ st.nameIn (st.printedNames ty) v = name) ∨
      (∃ k n, st.shape v = .var (.fresh k) ∧ st.nameIn (st.printedNames ty) v = letterName n)) ∧
    Set.InjOn (st.nameIn (st.printedNames ty)) { v | v ∈ st.collectVars ty } ∧
    (∀ names : VarNames, names.SearchEnds) ∧
    ∀ r, st.RenamesFresh ty r →
      let renamed := (StoreM.substituteAll ((st.freshVars ty).map fun v => (v, r v)) ty).run st
      renamed.2.print renamed.1 = st.print ty := by
  refine ⟨(prints_print st ty).text, fun v hv => ?_, injOn_nameIn hty, VarNames.searchEnds,
    fun r hr => hr.print_eq hst hty⟩
  rcases nameIn_cases hty hv with hnamed | ⟨k, n, hshape, -, hname⟩
  · exact .inl hnamed
  · exact .inr ⟨k, n, hshape, hname⟩

/-- Two variables of a type trade places. -/
theorem renamesFresh_swap {u v : TypeId} (hty : ty < st.size) (hu : u ∈ st.freshVars ty)
    (hv : v ∈ st.freshVars ty) : st.RenamesFresh ty (Equiv.swap u v) where
  fresh w hw := by
    have hmem : Equiv.swap u v w ∈ st.freshVars ty := by
      rw [Equiv.swap_apply_def]
      split_ifs <;> assumption
    obtain ⟨n, hn, -⟩ := (mem_freshVars hty).mp hmem
    exact ⟨n, hn⟩
  injOn := (Equiv.injective _).injOn

/-- A named variable between two variables without names. -/
def mixedTriple : StoreM TypeId := do
  let u ← StoreM.freshVar
  let a ← StoreM.namedVar "a"
  let v ← StoreM.freshVar
  StoreM.tuple [u, a, v]

theorem freshVars_mixedTriple (st : Store) : mixedTriple.Yields st fun r st' =>
    r < st'.size ∧ ∃ u v, u ≠ v ∧ u ∈ st'.freshVars r ∧ v ∈ st'.freshVars r := by
  have hfresh : ∀ st : Store, StoreM.freshVar.Yields st fun v st' => st.size ≤ v ∧ v < st'.size ∧
      ∃ n, st'.tree v = .var (.fresh n) ∧ st'.shape v = .var (.fresh n) := fun st => by
    obtain ⟨-, -, hnew, hshape⟩ := StoreM.freshVar_new st
    exact ⟨.single (.build _ rfl), hnew, lt_size_of_shape_var hshape, _, tree_of_var hshape, hshape⟩
  refine (hfresh st).bind fun u st₁ _ ⟨_, hu, k, hut, hus⟩ => ?_
  refine (StoreM.yields_intern (s := .var (.named "a")) rfl (by simp [Shape.children])).bind
    fun a st₂ h₂ ⟨ha, _⟩ => ?_
  refine (hfresh st₂).bind fun v st₃ h₃ ⟨hnew, hv, n, hvt, hvs⟩ => ?_
  have hu₂ := lt_size_of_le h₂.le hu
  have hu₃ := lt_size_of_le h₃.le hu₂
  refine (StoreM.yields_build (s := .tuple [u, a, v]) rfl (by
    simp [Shape.children, hu₃, lt_size_of_le h₃.le ha, hv])).mono fun r st₄ h₄ ⟨hr, htree⟩ => ?_
  have hle₂ := le_trans h₂.le (le_trans h₃.le h₄.le)
  refine ⟨hr, u, v, (Nat.lt_of_lt_of_le hu₂ hnew).ne, (mem_freshVars hr).mpr ⟨k, ?_, ?_⟩,
    (mem_freshVars hr).mpr ⟨n, ?_, ?_⟩⟩
  · rw [shape_of_le hle₂ hu, hus]
  · rw [htree, TypeTree.occurs_mk]
    exact .inr ⟨_, List.mem_cons_self, by rw [tree_of_le (le_trans h₂.le h₃.le) hu, hut]; simp⟩
  · rw [shape_of_le h₄.le hv, hvs]
  · rw [htree, TypeTree.occurs_mk]
    exact .inr ⟨st₃.tree v, by simp [Shape.children, Shape.map], by rw [hvt]; simp⟩

theorem print_names_faithful_mixedTriple :
    let built := mixedTriple Store.new
    (built.2.Reachable ∧ built.1 < built.2.size) ∧
    Set.InjOn (built.2.nameIn (built.2.printedNames built.1))
      { v | v ∈ built.2.collectVars built.1 } ∧
    ∃ u v, u ≠ v ∧ u ∈ built.2.freshVars built.1 ∧ v ∈ built.2.freshVars built.1 ∧
      let renamed := (StoreM.substituteAll ((built.2.freshVars built.1).map fun w =>
        (w, Equiv.swap u v w)) built.1).run built.2
      renamed.2.print renamed.1 = built.2.print built.1 := by
  intro built
  have hmixed := freshVars_mixedTriple Store.new
  have hst : built.2.Reachable := hmixed.steps
  obtain ⟨hty, u, v, huv, hu, hv⟩ := hmixed.result
  obtain ⟨-, -, hinj, -, hrenamed⟩ := print_names_faithful hst hty
  exact ⟨⟨hst, hty⟩, hinj, u, v, huv, hu, hv, hrenamed _ (renamesFresh_swap hty hu hv)⟩

end Store

end ConstraintTyping
