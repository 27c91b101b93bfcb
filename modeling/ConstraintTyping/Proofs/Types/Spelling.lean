import ConstraintTyping.Proofs.Types.Rewriting
import ConstraintTyping.Proofs.Types.VarNames

/-!
# The spelling of a type

Printing hands out names on the way, so what is said depends on what was printed before.  Read under
names for all variables, a type has one spelling, which no printing changes.  A printer says the
spelling under the names that it ends with, and under all names that come later: names are only
added.

Two printers that ask for the same names in the same order are compared step by step, by what they
say under the names they end with.
-/

namespace ConstraintTyping

/-! ## Printing without the bounds -/

namespace Store

/-- The text of a piece. -/
def printPiece (st : Store) : Piece TypeId → StateM VarNames String
  | .text s => pure s
  | .part c => st.printWith c

theorem printWith_eq (st : Store) (ty : TypeId) :
    st.printWith ty = do
      let text ← st.varText ty
      let parts ← (st.pieces text ty).mapM st.printPiece
      return String.join parts := by
  rw [printWith]
  congr 1
  funext text
  congr 1
  exact mapM_attach fun ⟨p, _⟩ => by cases p <;> rfl

/-- The texts of two types, each painted as a whole. -/
def printWhole (st : Store) (color : Bool) (a b : TypeId) (paint : String) :
    StateM VarNames (String × String) := do
  let x ← st.printWith a
  let y ← st.printWith b
  return (Color.paint color paint x, Color.paint color paint y)

/-- The texts of two pieces that face each other, given the texts of two constituents. -/
def facingText (color : Bool) (pair : TypeId → TypeId → StateM VarNames (String × String)) :
    Piece TypeId × Piece TypeId → StateM VarNames (String × String)
  | (.part c, .part d) => pair c d
  | (.text s, _) =>
    let tinted := if s.isEmpty then s else Color.paint color Color.shared s
    pure (tinted, tinted)
  | (.part _, .text _) => pure ("", "")

/-- Two lists of pieces belong to the same head. -/
def sameHead (ps qs : List (Piece TypeId)) : Bool :=
  ps.length = qs.length && (ps.zip qs).all fun (p, q) => p.agrees q

theorem printPairWith_eq (st : Store) (color : Bool) (a b : TypeId) :
    st.printPairWith color a b =
      if a = b then st.printWhole color a b Color.shared
      else st.varText a >>= fun textA => st.varText b >>= fun textB =>
        if sameHead (st.pieces textA a) (st.pieces textB b) then do
          let parts ← ((st.pieces textA a).zip (st.pieces textB b)).mapM
            (facingText color (st.printPairWith color))
          return (String.join (parts.map (·.1)), String.join (parts.map (·.2)))
        else st.printWhole color a b Color.differs := by
  rw [printPairWith]
  split
  · rfl
  congr 1
  funext textA
  congr 1
  funext textB
  unfold sameHead
  dsimp only
  by_cases hhead : ((st.pieces textA a).length = (st.pieces textB b).length &&
      ((st.pieces textA a).zip (st.pieces textB b)).all fun (p, q) => p.agrees q) = true
  · rw [if_pos hhead, if_pos hhead]
    congr 1
    exact mapM_attach fun ⟨(p, q), _⟩ => by cases p <;> cases q <;> rfl
  · rw [if_neg hhead, if_neg hhead]
    rfl

/-- The name that a named variable has. -/
def writtenName? (st : Store) (v : TypeId) : Option Name :=
  match st.shape v with
  | .var (.named name) => some name
  | _ => none

end Store

/-! ## Printers side by side -/

/-- From some names on, two printers ask for the same names, and what they say is related under the
names they end with and all later ones. -/
def Tandem {α β : Type} (names : VarNames) (r : VarNames → α → β → Prop) (x : StateM VarNames α)
    (y : StateM VarNames β) : Prop :=
  (y names).2 = (x names).2 ∧ names.Leads (x names).2 ∧
    ∀ later, (x names).2.Leads later → r later (x names).1 (y names).1

section Tandem

variable {α β γ δ : Type} {names : VarNames} {r r' : VarNames → α → β → Prop}
  {q : VarNames → γ → δ → Prop} {x : StateM VarNames α} {y : StateM VarNames β}

theorem tandem_pure {a : α} {b : β} (h : ∀ later, names.Leads later → r later a b) :
    Tandem names r (pure a) (pure b) :=
  ⟨rfl, .refl names, h⟩

theorem Tandem.bind {f : α → StateM VarNames γ} {g : β → StateM VarNames δ}
    (h : Tandem names r x y) (hf : ∀ a b names', names.Leads names' →
      (∀ later, names'.Leads later → r later a b) → Tandem names' q (f a) (g b)) :
    Tandem names q (x >>= f) (y >>= g) := by
  obtain ⟨hsame, hleads, hr⟩ := h
  obtain ⟨hsame', hleads', hq⟩ := hf _ _ _ hleads hr
  unfold Tandem
  rw [StateM.bind_apply, StateM.bind_apply, hsame]
  exact ⟨hsame', hleads.trans hleads', hq⟩

theorem tandem_mapM {r : γ → VarNames → α → β → Prop} {f : γ → StateM VarNames α}
    {g : γ → StateM VarNames β} {cs : List γ}
    (h : ∀ c ∈ cs, ∀ names', names.Leads names' → Tandem names' (r c) (f c) (g c)) :
    Tandem names (fun later as bs => ∃ ps : List (α × β), as = ps.map Prod.fst ∧
      bs = ps.map Prod.snd ∧ List.Forall₂ (fun c p => r c later p.1 p.2) cs ps)
      (cs.mapM f) (cs.mapM g) := by
  induction cs generalizing names with
  | nil => exact tandem_pure fun _ _ => ⟨[], rfl, rfl, .nil⟩
  | cons c cs ih =>
    rw [List.mapM_cons, List.mapM_cons]
    refine (h c List.mem_cons_self names (.refl names)).bind fun a b names₁ h₁ hab => ?_
    refine (ih fun d hd names' hl => h d (List.mem_cons_of_mem _ hd) names' (h₁.trans hl)).bind
      fun as bs names₂ h₂ hrest => ?_
    refine tandem_pure fun later hl => ?_
    obtain ⟨ps, rfl, rfl, hps⟩ := hrest later hl
    exact ⟨(a, b) :: ps, rfl, rfl, .cons (hab later (h₂.trans hl)) hps⟩

end Tandem

/-! ## Spelling -/

namespace Piece

variable {α : Type}

theorem mem_commaList_of_mem {a : α} : ∀ {items : List α}, a ∈ items → .part a ∈ commaList items
  | [b], h => by simpa [commaList] using h
  | b :: c :: rest, h => by
    simp only [commaList, List.mem_cons, Piece.part.injEq, reduceCtorEq, false_or]
    rcases List.mem_cons.mp h with rfl | h
    · exact .inl rfl
    · exact .inr (mem_commaList_of_mem h)

theorem mem_atom (f : α → Bool) (a : α) : .part a ∈ atom f a := by
  unfold atom
  split <;> simp

theorem mem_application_of_mem {f : α → Bool} {a : α} {name : Name} {args : List α} (h : a ∈ args) :
    .part a ∈ application f name args :=
  List.mem_cons_of_mem _ (List.mem_flatMap.mpr ⟨a, h, List.mem_cons_of_mem _ (mem_atom f a)⟩)

/-- Every constituent of a shape appears among its pieces. -/
theorem mem_ofShape_of_mem_children {f : α → Bool} {varText : String} {s : Shape α} {a : α}
    (h : a ∈ s.children) : .part a ∈ ofShape f varText s := by
  cases s with
  | prim p => cases h
  | var x => cases h
  | pointer target =>
    obtain rfl := List.mem_singleton.mp h
    exact List.mem_cons_of_mem _ (mem_atom f a)
  | array elem length =>
    obtain rfl := List.mem_singleton.mp h
    exact List.mem_cons_of_mem _ List.mem_cons_self
  | tuple items => exact List.mem_cons_of_mem _ (List.mem_append_left _ (mem_commaList_of_mem h))
  | function sig =>
    simp only [Shape.children, Signature.children, List.cons_append, List.mem_cons,
      List.mem_append] at h
    simp only [ofShape, List.cons_append, List.append_assoc, List.mem_cons, reduceCtorEq, false_or,
      List.mem_append, Piece.part.injEq, List.nil_append]
    rcases h with rfl | h | h
    · exact .inr (.inr (.inl rfl))
    · exact .inl (mem_commaList_of_mem h)
    · have hne : sig.givens.isEmpty = false := by
        cases hs : sig.givens with
        | nil => rw [hs] at h; cases h
        | cons => rfl
      rw [hne]
      exact .inr (.inr (.inr (List.mem_cons_of_mem _ (mem_commaList_of_mem h))))
  | product name args | sum name args => exact mem_application_of_mem h
  | trait name subject args => exact mem_application_of_mem h
  | qualified q base =>
    obtain rfl := List.mem_singleton.mp h
    exact List.mem_cons_of_mem _ List.mem_cons_self

end Piece

namespace Store

variable {st : Store} {ty v : TypeId} {names later : VarNames}

/-- What a variable prints as, under names for the variables. -/
def label (st : Store) (name : TypeId → Name) (ty : TypeId) : String :=
  if st.isVar ty then "'" ++ name ty else ""

/-- The text of a type under names for its variables. -/
def spell (st : Store) (name : TypeId → Name) (ty : TypeId) : String :=
  String.join ((st.pieces (st.label name ty) ty).attach.map fun
    | ⟨.text s, _⟩ => s
    | ⟨.part c, h⟩ =>
      have : c < ty := lt_of_mem_pieces h
      st.spell name c)
termination_by ty

/-- The text of a piece under names for the variables. -/
def spellPiece (st : Store) (name : TypeId → Name) : Piece TypeId → String
  | .text s => s
  | .part c => st.spell name c

theorem spell_eq (st : Store) (name : TypeId → Name) (ty : TypeId) : st.spell name ty =
    String.join ((st.pieces (st.label name ty) ty).map (st.spellPiece name)) := by
  rw [spell]
  refine congrArg String.join (Eq.trans (List.map_congr_left fun p _ => ?_) List.attach_map_val)
  obtain ⟨p, _⟩ := p
  cases p <;> rfl

/-- The name of a variable: its own, or else the one that was handed out. -/
def nameIn (st : Store) (names : VarNames) (v : TypeId) : Name :=
  (st.writtenName? v).getD ((names.assigned.lookup v).getD "")

/-- The text of a type, under names that all its variables have. -/
structure Prints (st : Store) (names : VarNames) (ty : TypeId) (s : String) : Prop where
  text : s = st.spell (st.nameIn names) ty
  named : ∀ v n, st.shape v = .var (.fresh n) → (st.tree ty).Occurs (.fresh n) →
    ∃ name, names.assigned.lookup v = some name

/-- The text of a piece, under names that all variables in it have. -/
def PrintsPiece (st : Store) (names : VarNames) : Piece TypeId → String → Prop
  | .text t, s => s = t
  | .part c, s => st.Prints names c s

theorem PrintsPiece.eq {p : Piece TypeId} {s : String} (h : st.PrintsPiece names p s) :
    s = st.spellPiece (st.nameIn names) p := by
  cases p with
  | text t => exact h
  | part c => exact h.text

/-- The text of a type is put together from the texts of its pieces. -/
theorem prints_join {ss : List String}
    (hvar : ∀ n, st.shape ty = .var (.fresh n) → ∃ name, names.assigned.lookup ty = some name)
    (h : List.Forall₂ (st.PrintsPiece names) (st.pieces (st.label (st.nameIn names) ty) ty) ss) :
    st.Prints names ty (String.join ss) where
  text := by
    have hss : (st.pieces (st.label (st.nameIn names) ty) ty).map (st.spellPiece (st.nameIn names)) =
        ss := by
      exact List.forall₂_eq_eq_eq ▸ List.forall₂_map_left_iff.mpr (h.imp fun _ _ hp => hp.eq.symm)
    rw [spell_eq, hss]
  named v n hv hn := by
    rcases occurs_tree.mp hn with hty | ⟨c, hc, hx⟩
    · rw [eq_of_shape_var hv hty]
      exact hvar n hty
    · obtain ⟨s, -, hs⟩ := exists_mem_of_forall₂ (List.Forall₂.flip (R := fun s p =>
        st.PrintsPiece names p s) h) (Piece.mem_ofShape_of_mem_children hc)
      exact hs.named v n hv hx

/-! ## One type -/

theorem tandem_varText (names : VarNames) (ty : TypeId) :
    Tandem names (fun later s t => s = t ∧ t = st.label (st.nameIn later) ty ∧
      ∀ n, st.shape ty = .var (.fresh n) → ∃ name, later.assigned.lookup ty = some name)
      (st.varText ty) (st.varText ty) := by
  unfold varText label nameIn writtenName? isVar
  cases hs : st.shape ty with
  | var x =>
    cases x with
    | named name => exact tandem_pure fun _ _ => ⟨rfl, rfl, fun _ h => by cases h⟩
    | fresh n =>
      have hname := VarNames.lookup_nameFor ty names
      refine ⟨rfl, VarNames.leads_nameFor ty names, fun later hl => ?_⟩
      have hlater := hl.lookup hname
      refine ⟨rfl, ?_, fun _ _ => ⟨_, hlater⟩⟩
      rw [hlater]
      rfl
  | _ => exact tandem_pure fun _ _ => ⟨rfl, rfl, fun _ h => by cases h⟩

theorem tandem_printWith (names : VarNames) (ty : TypeId) :
    Tandem names (fun later s t => s = t ∧ st.Prints later ty t)
      (st.printWith ty) (st.printWith ty) := by
  induction ty using Nat.strongRecOn generalizing names with
  | ind ty ih =>
    rw [printWith_eq]
    refine (tandem_varText names ty).bind fun text text' names₁ h₁ htext => ?_
    obtain ⟨rfl, -, -⟩ := htext names₁ (.refl names₁)
    refine (tandem_mapM (r := fun p later s t => s = t ∧ st.PrintsPiece later p t)
      fun p hp names₂ _ => ?_).bind fun ss ts names₂ h₂ hparts => ?_
    · cases p with
      | text s => exact tandem_pure fun _ _ => ⟨rfl, rfl⟩
      | part c => exact ih c (lt_of_mem_pieces hp) names₂
    refine tandem_pure fun later hl => ?_
    obtain ⟨ps, rfl, rfl, hps⟩ := hparts later hl
    obtain ⟨-, htext, hvar⟩ := htext later (h₂.trans hl)
    have hsame : ps.map Prod.fst = ps.map Prod.snd := List.map_congr_left fun p hp => by
      obtain ⟨_, -, hp⟩ := exists_mem_of_forall₂ hps hp
      exact hp.1
    refine ⟨congrArg String.join hsame, prints_join hvar ?_⟩
    rw [← htext]
    exact List.forall₂_map_right_iff.mpr (hps.imp fun _ _ hp => hp.2)

/-- A variable that has a name is given no other. -/
theorem varText_of_named
    (h : ∀ n, st.shape ty = .var (.fresh n) → ∃ name, names.assigned.lookup ty = some name) :
    st.varText ty names = (st.label (st.nameIn names) ty, names) := by
  unfold varText label nameIn writtenName? isVar
  cases hs : st.shape ty with
  | var x =>
    cases x with
    | named name => rfl
    | fresh n =>
      obtain ⟨name, hname⟩ := h n hs
      simp only [StateM.bind_apply, VarNames.nameFor, hname]
      rfl
  | _ => rfl

/-- Once all variables of a type have names, no more are handed out for it. -/
theorem printWith_of_prints {s : String} (h : st.Prints names ty s) :
    st.printWith ty names = (s, names) := by
  induction ty using Nat.strongRecOn generalizing s with
  | ind ty ih =>
    obtain ⟨rfl, hnamed⟩ := h
    have hvar := varText_of_named fun n hs => hnamed ty n hs (occurs_tree.mpr (.inl hs))
    have hpiece : ∀ p ∈ st.pieces (st.label (st.nameIn names) ty) ty,
        st.printPiece p names = (st.spellPiece (st.nameIn names) p, names) := by
      intro p hp
      cases p with
      | text s => rfl
      | part c =>
        exact ih c (lt_of_mem_pieces hp) ⟨rfl, fun v n hv hn => hnamed v n hv
          (occurs_tree.mpr (.inr ⟨c, Piece.mem_children_of_mem_ofShape hp, hn⟩))⟩
    rw [printWith_eq, StateM.bind_apply, hvar, StateM.bind_apply, mapM_eq_self hpiece, spell_eq]
    rfl

end Store

end ConstraintTyping
