import ConstraintTyping.Proofs.Types.Chains
import ConstraintTyping.Proofs.Types.Spelling

/-!
# Two types in color

Printing two types side by side walks both of them at once, paints what they share and what they
differ in, and hands out names to the variables of one and the other in turn.  Each of the two texts
is still the spelling of its type: the text that printing it alone gives from then on, with nothing
but escape sequences added by color.
-/

namespace ConstraintTyping

/-! ## Escape sequences -/

namespace Color

/-- The character with which every escape sequence begins. -/
def escape : Char := Char.ofNat 27

/-- Characters without the escape sequences among them, from inside of one or from outside. -/
def stripFrom : Bool → List Char → List Char
  | _, [] => []
  | true, c :: cs => stripFrom (c ≠ 'm') cs
  | false, c :: cs => if c = escape then stripFrom true cs else c :: stripFrom false cs

/-- A text without its escape sequences. -/
def strip (text : String) : String := String.ofList (stripFrom false text.toList)

/-- A text in which no escape sequence begins. -/
def Unescaped (text : String) : Prop := escape ∉ text.toList

instance (text : String) : Decidable (Unescaped text) := inferInstanceAs (Decidable (_ ∉ _))

/-- A text that is another one once its escape sequences are taken out, whatever comes next. -/
def Tinted (tinted plain : String) : Prop :=
  ∀ rest, stripFrom false (tinted.toList ++ rest) = plain.toList ++ stripFrom false rest

variable {s t s' t' : String}

theorem Tinted.strip_eq (h : Tinted s t) : strip s = t := by
  have hrest := h []
  rw [List.append_nil, stripFrom, List.append_nil] at hrest
  rw [strip, hrest, String.ofList_toList]

theorem tinted_empty : Tinted "" "" := fun _ => rfl

theorem Tinted.append (h : Tinted s t) (h' : Tinted s' t') : Tinted (s ++ s') (t ++ t') := by
  intro rest
  rw [String.toList_append, String.toList_append, List.append_assoc, List.append_assoc, h, h']

theorem tinted_join {α : Type} {f g : α → String} {xs : List α} (h : ∀ x ∈ xs, Tinted (f x) (g x)) :
    Tinted (String.join (xs.map f)) (String.join (xs.map g)) := by
  induction xs with
  | nil => exact tinted_empty
  | cons x xs ih =>
    rw [List.map_cons, List.map_cons, String.join_cons, String.join_cons]
    exact (h x List.mem_cons_self).append (ih fun y hy => h y (List.mem_cons_of_mem _ hy))

theorem Unescaped.tinted (h : Unescaped s) : Tinted s s := by
  intro rest
  unfold Unescaped at h
  generalize s.toList = cs at h
  induction cs with
  | nil => rfl
  | cons c cs ih =>
    rw [List.mem_cons, not_or] at h
    rw [List.cons_append, stripFrom, if_neg (Ne.symm h.1), ih h.2, List.cons_append]

theorem tinted_shared : Tinted shared "" := fun _ => rfl

theorem tinted_differs : Tinted differs "" := fun _ => rfl

theorem tinted_reset : Tinted reset "" := fun _ => rfl

/-- Painting adds nothing but escape sequences. -/
theorem Unescaped.tinted_paint {color : String} (h : Unescaped s) (hcolor : Tinted color "") :
    Tinted (paint true color s) (paint false color s) := by
  have htinted := (hcolor.append h.tinted).append tinted_reset
  rwa [String.empty_append, String.append_empty] at htinted

example : strip (shared ++ "*" ++ reset ++ differs ++ "i32" ++ reset) = "*i32" := by decide

/-- A text that two types share, painted unless it is empty. -/
theorem Unescaped.tinted_text (h : Unescaped s) :
    Tinted (if s.isEmpty then s else paint true shared s)
      (if s.isEmpty then s else paint false shared s) := by
  split
  · exact h.tinted
  · exact h.tinted_paint tinted_shared

theorem unescaped_append : Unescaped (s ++ t) ↔ Unescaped s ∧ Unescaped t := by
  unfold Unescaped
  rw [String.toList_append, List.mem_append, not_or]

theorem unescaped_join {ss : List String} :
    Unescaped (String.join ss) ↔ ∀ s ∈ ss, Unescaped s := by
  induction ss with
  | nil => exact iff_of_true (fun h => by cases h) nofun
  | cons s ss ih => rw [List.forall_mem_cons, ← ih, String.join_cons, unescaped_append]

theorem unescaped_toString (n : Nat) : Unescaped (toString n) := by
  intro h
  rw [show toString n = Nat.repr n from rfl, Nat.repr_eq_ofList_toDigits, String.toList_ofList] at h
  exact absurd (Nat.isDigit_of_mem_toDigits (by decide) (by decide) h) (by decide)

theorem unescaped_letterName (n : Nat) : Unescaped (letterName n) := by
  intro h
  rw [toList_letterName, List.mem_cons] at h
  rcases h with h | h
  · have hcode := congrArg Char.toNat h
    rw [Char.ofNat, dif_pos (.inl (by omega))] at hcode
    change 27 = 97 + n % 26 at hcode
    omega
  · split at h
    · cases h
    · exact unescaped_toString (n / 26) h

end Color

/-! ## Texts without escape sequences -/

/-- The name in a shape. -/
def Shape.name? {α : Type} : Shape α → Option Name
  | .var (.named name) | .product name _ | .sum name _ | .trait name _ _ => some name
  | _ => none

namespace Piece

open Color

variable {α : Type} {f : α → Bool} {s varText : String}

theorem unescaped_of_mem_commaList {items : List α} (h : .text s ∈ commaList items) :
    Unescaped s := by
  induction items using commaList.induct with
  | case1 => cases h
  | case2 a => cases List.mem_singleton.mp h
  | case3 a b rest ih =>
    simp only [commaList, List.mem_cons, reduceCtorEq, Piece.text.injEq, false_or] at h ih
    rcases h with rfl | h
    · decide
    · exact ih h

theorem unescaped_of_mem_atom {a : α} (h : .text s ∈ atom f a) : Unescaped s := by
  unfold atom at h
  split at h <;> simp at h
  rcases h with rfl | rfl <;> decide

theorem unescaped_of_mem_application {name : Name} {args : List α} (hname : Unescaped name)
    (h : .text s ∈ application f name args) : Unescaped s := by
  simp only [application, List.mem_cons, List.mem_flatMap, Piece.text.injEq] at h
  rcases h with rfl | ⟨a, -, rfl | h⟩
  · exact hname
  · decide
  · exact unescaped_of_mem_atom h

/-- The texts of a shape's pieces are written without escape sequences, except for names. -/
theorem unescaped_of_mem_ofShape {shape : Shape α} (hvar : Unescaped varText)
    (hname : ∀ name ∈ shape.name?, Unescaped name) (h : .text s ∈ ofShape f varText shape) :
    Unescaped s := by
  cases shape with
  | prim p =>
    obtain rfl := Piece.text.inj (List.mem_singleton.mp h)
    cases p <;> decide
  | pointer target =>
    rcases List.mem_cons.mp h with h | h
    · obtain rfl := Piece.text.inj h
      decide
    · exact unescaped_of_mem_atom h
  | array elem length =>
    simp only [ofShape, List.mem_cons, Piece.text.injEq, reduceCtorEq, List.not_mem_nil, or_false,
      false_or] at h
    rcases h with rfl | rfl
    · decide
    · cases length with
      | none => decide
      | some n => exact unescaped_append.mpr ⟨unescaped_append.mpr ⟨by decide,
          unescaped_toString n⟩, by decide⟩
  | tuple items =>
    simp only [ofShape, List.cons_append, List.mem_cons, List.mem_append, Piece.text.injEq,
      List.not_mem_nil, or_false] at h
    rcases h with rfl | h | rfl
    · decide
    · exact unescaped_of_mem_commaList h
    · decide
  | function sig =>
    simp only [ofShape, List.cons_append, List.append_assoc, List.mem_cons, List.mem_append,
      Piece.text.injEq, reduceCtorEq, false_or, List.nil_append] at h
    rcases h with rfl | h | h | rfl | h
    · split <;> decide
    · exact unescaped_of_mem_commaList h
    · split at h
      · obtain rfl := Piece.text.inj (List.mem_singleton.mp h)
        split <;> decide
      · cases h
    · decide
    · split at h
      · cases h
      · rcases List.mem_cons.mp h with h | h
        · obtain rfl := Piece.text.inj h
          decide
        · exact unescaped_of_mem_commaList h
  | var x =>
    obtain rfl := Piece.text.inj (List.mem_singleton.mp h)
    exact hvar
  | product name args | sum name args => exact unescaped_of_mem_application (hname _ rfl) h
  | trait name subject args => exact unescaped_of_mem_application (hname _ rfl) h
  | qualified q base =>
    simp only [ofShape, List.mem_cons, Piece.text.injEq, reduceCtorEq, List.not_mem_nil,
      or_false] at h
    subst h
    cases q <;> decide

end Piece

/-! ## Pairs -/

namespace Store

open Color

variable {st : Store} {names later : VarNames} {a b : TypeId}

/-- No text that is spelled under some names has an escape sequence in it. -/
def CleanTexts (st : Store) (names : VarNames) : Prop :=
  ∀ ty, Unescaped (st.spell (st.nameIn names) ty)

theorem CleanTexts.piece (h : st.CleanTexts names) {p : Piece TypeId} {ty : TypeId}
    (hp : p ∈ st.pieces (st.label (st.nameIn names) ty) ty) :
    Unescaped (st.spellPiece (st.nameIn names) p) := by
  have hty := h ty
  rw [spell_eq, unescaped_join] at hty
  exact hty _ (List.mem_map_of_mem hp)

/-- What a pair of printers says of two parts of types, in color and without. -/
structure SaysPair (st : Store) (names : VarNames) (left right : String → Prop)
    (colored plain : String × String) : Prop where
  left : left plain.1
  right : right plain.2
  tinted : st.CleanTexts names → Tinted colored.1 plain.1 ∧ Tinted colored.2 plain.2

theorem tandem_printWhole (names : VarNames) (a b : TypeId) {paint : String}
    (hpaint : Tinted paint "") :
    Tandem names (fun later => st.SaysPair later (st.Prints later a) (st.Prints later b))
      (st.printWhole true a b paint) (st.printWhole false a b paint) := by
  refine (tandem_printWith names a).bind fun x x' names₁ h₁ hx => ?_
  refine (tandem_printWith names₁ b).bind fun y y' names₂ h₂ hy => ?_
  refine tandem_pure fun later hl => ?_
  obtain ⟨rfl, hx⟩ := hx later (h₂.trans hl)
  obtain ⟨rfl, hy⟩ := hy later hl
  refine ⟨hx, hy, fun hclean => ⟨Unescaped.tinted_paint ?_ hpaint, Unescaped.tinted_paint ?_ hpaint⟩⟩
  · exact hx.text ▸ hclean a
  · exact hy.text ▸ hclean b

/-- What is said of two lists of pieces, one facing the other, is said of the two types. -/
theorem SaysPair.join {ps qs : List (Piece TypeId)}
    {said : List ((String × String) × (String × String))} {left right : String → Prop}
    (h : List.Forall₂ (fun p t => st.SaysPair names (st.PrintsPiece names p.1)
      (st.PrintsPiece names p.2) t.1 t.2) (ps.zip qs) said) (hlength : ps.length = qs.length)
    (hleft : ∀ ss, List.Forall₂ (st.PrintsPiece names) ps ss → left (String.join ss))
    (hright : ∀ ss, List.Forall₂ (st.PrintsPiece names) qs ss → right (String.join ss)) :
    st.SaysPair names left right
      (String.join (said.map fun t => t.1.1), String.join (said.map fun t => t.1.2))
      (String.join (said.map fun t => t.2.1), String.join (said.map fun t => t.2.2)) := by
  have htinted : st.CleanTexts names → ∀ t ∈ said, Tinted t.1.1 t.2.1 ∧ Tinted t.1.2 t.2.2 := by
    intro hclean t ht
    obtain ⟨_, -, hsays⟩ := exists_mem_of_forall₂ h ht
    exact hsays.tinted hclean
  -- each side of the pairs is one of the two lists
  have hps : List.Forall₂ (fun p t => st.PrintsPiece names p t.2.1) (List.map Prod.fst _) said :=
    List.forall₂_map_left_iff.mpr (h.imp fun _ _ hp => hp.left)
  have hqs : List.Forall₂ (fun q t => st.PrintsPiece names q t.2.2) (List.map Prod.snd _) said :=
    List.forall₂_map_left_iff.mpr (h.imp fun _ _ hp => hp.right)
  rw [List.map_fst_zip hlength.le] at hps
  rw [List.map_snd_zip hlength.ge] at hqs
  exact ⟨hleft _ (List.forall₂_map_right_iff.mpr hps), hright _ (List.forall₂_map_right_iff.mpr hqs),
    fun hclean => ⟨tinted_join fun t ht => (htinted hclean t ht).1,
      tinted_join fun t ht => (htinted hclean t ht).2⟩⟩

/-- Two pieces that agree are said side by side once constituents are. -/
theorem tandem_facingText {p q : Piece TypeId} (hagree : p.agrees q = true)
    (hpart : ∀ c d, p = .part c → q = .part d →
      Tandem names (fun later => st.SaysPair later (st.Prints later c) (st.Prints later d))
        (st.printPairWith true c d) (st.printPairWith false c d))
    (htext : ∀ s, p = .text s → ∀ later, names.Leads later → st.CleanTexts later → Unescaped s) :
    Tandem names (fun later => st.SaysPair later (st.PrintsPiece later p) (st.PrintsPiece later q))
      (facingText true (st.printPairWith true) (p, q))
      (facingText false (st.printPairWith false) (p, q)) := by
  cases p with
  | part c =>
    cases q with
    | part d => exact hpart c d rfl rfl
    | text s => cases hagree
  | text s =>
    cases q with
    | part d => cases hagree
    | text s' =>
      obtain rfl : s = s' := beq_iff_eq.mp hagree
      have hplain : (if s.isEmpty then s else paint false shared s) = s := ite_self s
      refine tandem_pure fun later hl => ⟨hplain, hplain, fun hclean => ?_⟩
      have htinted := (htext s rfl later hl hclean).tinted_text
      exact ⟨htinted, htinted⟩

/-- Two types side by side: the printers with and without color ask for the same names and say the
spellings of both types. -/
theorem tandem_printPairWith (names : VarNames) (a b : TypeId) :
    Tandem names (fun later => st.SaysPair later (st.Prints later a) (st.Prints later b))
      (st.printPairWith true a b) (st.printPairWith false a b) := by
  induction a using Nat.strongRecOn generalizing names b with
  | ind a ih =>
    rw [printPairWith_eq, printPairWith_eq]
    split
    · exact tandem_printWhole names a b tinted_shared
    -- the variables at the two heads get their names first
    refine (tandem_varText names a).bind fun textA textA' names₁ h₁ hA => ?_
    obtain ⟨rfl, -, -⟩ := hA names₁ (.refl names₁)
    refine (tandem_varText names₁ b).bind fun textB textB' names₂ h₂ hB => ?_
    obtain ⟨rfl, -, -⟩ := hB names₂ (.refl names₂)
    split
    swap
    · exact tandem_printWhole names₂ a b tinted_differs
    next hhead =>
    rw [sameHead, Bool.and_eq_true, decide_eq_true_eq, List.all_eq_true] at hhead
    obtain ⟨hlength, hagrees⟩ := hhead
    refine (tandem_mapM (r := fun p later => st.SaysPair later (st.PrintsPiece later p.1)
      (st.PrintsPiece later p.2)) fun p hp names₃ h₃ => ?_).bind fun ss ts names₃ h₃ hparts => ?_
    · have hmem := List.of_mem_zip hp
      refine tandem_facingText (hagrees p hp) (fun c d hc _ => ?_) fun s hs later hl hclean => ?_
      · exact ih c (lt_of_mem_pieces (hc ▸ hmem.1)) names₃ d
      · obtain ⟨-, rfl, -⟩ := hA later (h₂.trans (h₃.trans hl))
        exact hclean.piece (hs ▸ hmem.1)
    refine tandem_pure fun later hl => ?_
    obtain ⟨said, rfl, rfl, hsaid⟩ := hparts later hl
    obtain ⟨-, rfl, hvarA⟩ := hA later (h₂.trans (h₃.trans hl))
    obtain ⟨-, rfl, hvarB⟩ := hB later (h₃.trans hl)
    rw [List.map_map, List.map_map, List.map_map, List.map_map]
    exact SaysPair.join hsaid hlength (fun _ => prints_join hvarA) fun _ => prints_join hvarB

/-- No name in a type of the store has an escape sequence in it. -/
def CleanNames (st : Store) : Prop := ∀ ty, ∀ name ∈ (st.shape ty).name?, Unescaped name

/-- The letters that are handed out have no escape sequences. -/
theorem unescaped_label {ty : TypeId} (hnames : names.Apart)
    (h : ∀ name ∈ (st.shape ty).name?, Unescaped name) :
    Unescaped (st.label (st.nameIn names) ty) := by
  unfold label nameIn writtenName?
  split
  swap
  · decide
  refine unescaped_append.mpr ⟨by decide, ?_⟩
  split
  · next name hs => exact h name (by rw [hs]; rfl)
  cases hname : names.assigned.lookup ty with
  | none => decide
  | some name =>
    obtain ⟨n, -, rfl⟩ : ∃ n < names.next, name = letterName n :=
      hnames.letters _ (VarNames.mem_assigned hname)
    exact unescaped_letterName n

/-- Names without escape sequences are spelled without them. -/
theorem CleanNames.cleanTexts (h : st.CleanNames) (hnames : names.Apart) : st.CleanTexts names := by
  intro ty
  induction ty using Nat.strongRecOn with
  | ind ty ih =>
    rw [spell_eq, unescaped_join]
    intro s hs
    obtain ⟨p, hp, rfl⟩ := List.mem_map.mp hs
    cases p with
    | part c => exact ih c (lt_of_mem_pieces hp)
    | text s =>
      exact Piece.unescaped_of_mem_ofShape (unescaped_label hnames (h ty)) (h ty) hp

/-- Printing two types side by side says of each what printing it alone says, under the same names
for variables.  Color adds nothing but escape sequences. -/
theorem printPairWith_agrees (st : Store) (types : List TypeId) (names : VarNames) (a b : TypeId)
    (hnames : (VarNames.forTypes st types).Leads names) :
    let plain := (st.printPairWith false a b).run names
    ((st.printWith a).run plain.2 = (plain.1.1, plain.2) ∧
      (st.printWith b).run plain.2 = (plain.1.2, plain.2)) ∧
    (st.CleanNames →
      let colored := (st.printPairWith true a b).run names
      colored.2 = plain.2 ∧ strip colored.1.1 = plain.1.1 ∧ strip colored.1.2 = plain.1.2) := by
  obtain ⟨hsame, hleads, hsays⟩ : Tandem names _ (st.printPairWith true a b) _ :=
    tandem_printPairWith names a b
  intro plain
  have hplain : plain.2 = (st.printPairWith true a b names).2 := hsame
  have hsays := hsays plain.2 (hplain ▸ .refl _)
  refine ⟨⟨printWith_of_prints hsays.left, printWith_of_prints hsays.right⟩, fun hclean => ?_⟩
  have hapart := (hnames.trans hleads).apart (VarNames.apart_forTypes st types)
  obtain ⟨hleft, hright⟩ := hsays.tinted (hclean.cleanTexts (hplain ▸ hapart))
  exact ⟨hplain.symm, hleft.strip_eq, hright.strip_eq⟩

theorem cleanNames_new : Store.new.CleanNames := by
  intro ty
  obtain ⟨p, hp⟩ := exists_shape_new ty
  rw [hp]
  nofun

theorem CleanNames.intern {s : Shape TypeId} (h : st.CleanNames)
    (hs : ∀ name ∈ s.name?, Unescaped name) : (StoreM.intern s st).2.CleanNames := by
  intro ty
  rcases Nat.lt_or_ge ty st.size with hlt | hge
  · rw [shape_of_le (StoreM.intern_le s st) hlt]
    exact h ty
  rcases Nat.lt_or_ge ty (StoreM.intern s st).2.size with hlt | hout
  · rw [(StoreM.shape_intern_of_ge hge hlt).1]
    unfold TypeTable.key
    split
    · exact hs
    · cases s <;> exact hs
  · rw [shape_of_ge hout]
    nofun

/-- A pointer to a variable without a name, and one to a primitive. -/
def facingPointers : StoreM (TypeId × TypeId) := do
  let v ← StoreM.freshVar
  return (← StoreM.pointer v, ← StoreM.pointer TypeId.bool)

theorem printPairWith_agrees_facingPointers :
    let built := facingPointers Store.new
    let names := VarNames.forTypes built.2 [built.1.1, built.1.2]
    let plain := (built.2.printPairWith false built.1.1 built.1.2).run names
    let colored := (built.2.printPairWith true built.1.1 built.1.2).run names
    (VarNames.forTypes built.2 [built.1.1, built.1.2]).Leads names ∧
      (built.2.printWith built.1.1).run plain.2 = (plain.1.1, plain.2) ∧
      (built.2.printWith built.1.2).run plain.2 = (plain.1.2, plain.2) ∧
      strip colored.1.1 = plain.1.1 ∧ strip colored.1.2 = plain.1.2 := by
  intro built names plain colored
  have hclean : built.2.CleanNames :=
    ((cleanNames_new.intern (s := .var (.fresh _)) nofun).intern (s := .pointer _) nofun).intern
      (s := .pointer _) nofun
  obtain ⟨⟨hleft, hright⟩, hcolored⟩ := printPairWith_agrees built.2 [built.1.1, built.1.2] names
    built.1.1 built.1.2 (.refl names)
  exact ⟨.refl names, hleft, hright, (hcolored hclean).2⟩

end Store

end ConstraintTyping
