import ConstraintTyping.Source.Lines
import Mathlib.Algebra.GroupWithZero.Nat
import Mathlib.Data.List.Induction
import Mathlib.Data.Prod.Lex

/-!
# Lines of a text

A line starts at the beginning of the text or right after a newline.  The line of an offset is told
by the newline bytes before it, its column by the characters since the line started, so that places
in the text are ordered as offsets are.  Joined by newlines, the lines of a text are the text.
-/

namespace ConstraintTyping

variable {cs xs ys : List Char} {c : Char} {m n offset : Nat}

/-! ## Bytes -/

@[simp] theorem byteLength_nil : byteLength [] = 0 := rfl

theorem byteLength_eq_sum (cs : List Char) : byteLength cs = (cs.map Char.utf8Size).sum := by
  have hfold : ∀ (cs : List Char) (n : Nat),
      cs.foldl (fun n c => n + c.utf8Size) n = n + (cs.map Char.utf8Size).sum := by
    intro cs
    induction cs with
    | nil => exact fun n => rfl
    | cons c cs ih =>
      intro n
      rw [List.foldl_cons, ih, List.map_cons, List.sum_cons, Nat.add_assoc]
  rw [byteLength, hfold, Nat.zero_add]

@[simp] theorem byteLength_cons (c : Char) (cs : List Char) :
    byteLength (c :: cs) = c.utf8Size + byteLength cs := by
  simp [byteLength_eq_sum]

@[simp] theorem byteLength_append (xs ys : List Char) :
    byteLength (xs ++ ys) = byteLength xs + byteLength ys := by
  simp [byteLength_eq_sum]

theorem byteLength_eq_zero_iff : byteLength cs = 0 ↔ cs = [] := by
  cases cs with
  | nil => simp
  | cons c cs =>
    have hpos := c.utf8Size_pos
    exact iff_of_false (by rw [byteLength_cons]; omega) (List.cons_ne_nil c cs)

/-- The bytes of a text are those of its characters. -/
theorem bytes_eq (text : String) :
    text.toByteArray.data.toList = text.toList.flatMap String.utf8EncodeChar := by
  rw [← String.utf8Encode_toList, List.utf8Encode]
  simp

theorem length_flatMap_encode (cs : List Char) :
    (cs.flatMap String.utf8EncodeChar).length = byteLength cs := by
  induction cs with
  | nil => rfl
  | cons c cs ih => rw [List.flatMap_cons, List.length_append, ih, String.length_utf8EncodeChar,
      byteLength_cons]

theorem byteLength_toList (text : String) : byteLength text.toList = text.utf8ByteSize := by
  rw [← length_flatMap_encode, ← bytes_eq, ← String.size_toByteArray]
  rfl

/-- The byte of a newline encodes nothing but a newline. -/
theorem mem_utf8EncodeChar_iff : 10 ∈ String.utf8EncodeChar c ↔ c = '\n' := by
  have hcode : c = '\n' ↔ c.val.toNat = 10 := by
    rw [← Char.toNat_inj]
    rfl
  have hbyte : ∀ n : Nat, n < 256 → ((10 : UInt8) = UInt8.ofNat n ↔ n = 10) := fun n hn => by
    rw [← UInt8.toNat_inj, UInt8.toNat_ofNat', Nat.mod_eq_of_lt hn]
    exact eq_comm
  rw [hcode]
  fun_cases String.utf8EncodeChar c with
  | case1 v hv =>
    rw [List.mem_singleton, hbyte _ (Nat.lt_of_le_of_lt hv (by decide))]
  | case2 v hv hv' =>
    simp only [List.mem_cons, List.not_mem_nil, or_false]
    rw [hbyte _ (by omega), hbyte _ (by omega)]
    omega
  | case3 v hv hv' hv'' =>
    simp only [List.mem_cons, List.not_mem_nil, or_false]
    rw [hbyte _ (by omega), hbyte _ (by omega), hbyte _ (by omega)]
    omega
  | case4 v hv hv' hv'' =>
    simp only [List.mem_cons, List.not_mem_nil, or_false]
    rw [hbyte _ (by omega), hbyte _ (by omega), hbyte _ (by omega), hbyte _ (by omega)]
    omega

/-! ## Parts of a text -/

/-- A text is split at an offset into what takes up as many bytes, and the rest. -/
theorem splitAtByte?_eq_some :
    splitAtByte? cs n = some (xs, ys) ↔ cs = xs ++ ys ∧ byteLength xs = n := by
  have hzero : ∀ {cs xs ys : List Char},
      splitAtByte? cs 0 = some (xs, ys) ↔ cs = xs ++ ys ∧ byteLength xs = 0 := by
    intro cs xs ys
    rw [splitAtByte?, Option.some_inj, Prod.mk.injEq, byteLength_eq_zero_iff]
    constructor
    · rintro ⟨rfl, rfl⟩
      exact ⟨rfl, rfl⟩
    · rintro ⟨heq, rfl⟩
      exact ⟨rfl, heq⟩
  induction cs generalizing n xs ys with
  | nil =>
    cases n with
    | zero => exact hzero
    | succ n =>
      refine iff_of_false nofun ?_
      rintro ⟨hnil, hlen⟩
      rw [(List.append_eq_nil_iff.mp hnil.symm).1] at hlen
      cases hlen
  | cons c cs ih =>
    cases n with
    | zero => exact hzero
    | succ n =>
      have hpos := c.utf8Size_pos
      rw [splitAtByte?]
      split
      · next hle =>
        simp only [Option.map_eq_some_iff, Prod.exists, ih, Prod.mk.injEq]
        constructor
        · rintro ⟨before, after, ⟨rfl, hlen⟩, rfl, rfl⟩
          exact ⟨rfl, by rw [byteLength_cons]; omega⟩
        · rintro ⟨heq, hlen⟩
          cases xs with
          | nil => cases hlen
          | cons d xs =>
            obtain ⟨rfl, rfl⟩ := List.cons_eq_cons.mp heq
            rw [byteLength_cons] at hlen
            exact ⟨xs, ys, ⟨rfl, by omega⟩, rfl, rfl⟩
      · next hgt =>
        refine iff_of_false nofun ?_
        rintro ⟨heq, hlen⟩
        cases xs with
        | nil => cases hlen
        | cons d xs =>
          obtain ⟨rfl, rfl⟩ := List.cons_eq_cons.mp heq
          rw [byteLength_cons] at hlen
          omega

/-- A slice is what stands between two offsets. -/
theorem sliceBytes?_eq_some : sliceBytes? cs m n = some ys ↔
    ∃ xs zs, cs = xs ++ (ys ++ zs) ∧ byteLength xs = m ∧ m + byteLength ys = n := by
  unfold sliceBytes?
  split
  swap
  · next hle =>
    refine iff_of_false nofun ?_
    rintro ⟨xs, zs, -, -, hlen⟩
    omega
  next hle =>
    simp only [Option.bind_eq_bind, Option.bind_eq_some_iff, Prod.exists, splitAtByte?_eq_some,
      Option.pure_def, Option.some_inj]
    constructor
    · rintro ⟨xs, _, ⟨rfl, hm⟩, _, zs, ⟨rfl, hn⟩, rfl⟩
      exact ⟨xs, zs, rfl, hm, by omega⟩
    · rintro ⟨xs, zs, rfl, hm, hn⟩
      exact ⟨xs, _, ⟨rfl, hm⟩, ys, zs, ⟨rfl, by omega⟩, rfl⟩

/-! ## Starts of lines -/

theorem lineStartsAfter_append (xs ys : List Char) (offset : Nat) : lineStartsAfter (xs ++ ys) offset =
    lineStartsAfter xs offset ++ lineStartsAfter ys (offset + byteLength xs) := by
  induction xs generalizing offset with
  | nil => rfl
  | cons c xs ih =>
    simp only [List.cons_append, lineStartsAfter, ih, byteLength_cons, Nat.add_assoc]
    split <;> rfl

theorem length_lineStartsAfter (cs : List Char) (offset : Nat) :
    (lineStartsAfter cs offset).length = cs.count '\n' := by
  induction cs generalizing offset with
  | nil => rfl
  | cons c cs ih =>
    rw [lineStartsAfter, List.count_cons]
    split <;> simp_all

/-- A line that is not the first starts after the beginning of the text, and within it. -/
theorem mem_lineStartsAfter {start : Nat} (h : start ∈ lineStartsAfter cs offset) :
    offset < start ∧ start ≤ offset + byteLength cs := by
  induction cs generalizing offset with
  | nil => cases h
  | cons c cs ih =>
    have hpos := c.utf8Size_pos
    have hlater : start ∈ lineStartsAfter cs (offset + c.utf8Size) →
        offset < start ∧ start ≤ offset + byteLength (c :: cs) := fun h => by
      have := ih h
      rw [byteLength_cons]
      omega
    rw [lineStartsAfter] at h
    split at h
    · rcases List.mem_cons.mp h with rfl | h
      · rw [byteLength_cons]
        omega
      · exact hlater h
    · exact hlater h

/-- Lines start at as many places up to an offset as there are newline bytes before it. -/
theorem length_filter_lineStartsAfter {start : Nat} (h : start ≤ offset) :
    ((lineStartsAfter cs start).filter (· ≤ offset)).length =
      ((cs.flatMap String.utf8EncodeChar).take (offset - start)).count 10 := by
  induction cs generalizing start with
  | nil => simp [lineStartsAfter]
  | cons c cs ih =>
    have hbyte := mem_utf8EncodeChar_iff (c := c)
    have hlen := String.length_utf8EncodeChar c
    rw [List.flatMap_cons]
    by_cases hle : start + c.utf8Size ≤ offset
    · -- the character lies before the offset as a whole
      rw [List.take_append, List.count_append, List.take_of_length_le (by omega), hlen,
        ← Nat.sub_add_eq, ← ih hle, lineStartsAfter]
      split
      · next hc =>
        subst hc
        rw [List.filter_cons_of_pos (by simpa using hle), List.length_cons, Nat.add_comm]
        rfl
      · next hc => rw [List.count_eq_zero.mpr (hbyte.not.mpr hc), Nat.zero_add]
    · -- no line starts before the end of the character, whose last byte is out of reach
      have hnone : ∀ s ∈ lineStartsAfter (c :: cs) start, ¬ s ≤ offset := by
        have hlater : ∀ s ∈ lineStartsAfter cs (start + c.utf8Size), ¬ s ≤ offset := fun s hs => by
          have := mem_lineStartsAfter hs
          omega
        rw [lineStartsAfter]
        split
        · exact List.forall_mem_cons.mpr ⟨hle, hlater⟩
        · exact hlater
      rw [List.filter_eq_nil_iff.mpr (by simpa using hnone),
        List.take_append_of_le_length (by omega), List.length_nil, eq_comm, List.count_eq_zero]
      intro hmem
      obtain rfl := hbyte.mp (List.mem_of_mem_take hmem)
      have hzero : offset - start = 0 := by
        have : ('\n').utf8Size = 1 := rfl
        omega
      rw [hzero] at hmem
      cases hmem

/-- Lines start one after the other. -/
theorem pairwise_lineStartsAfter (cs : List Char) (offset : Nat) :
    (lineStartsAfter cs offset).Pairwise (· < ·) := by
  induction cs generalizing offset with
  | nil => exact .nil
  | cons c cs ih =>
    rw [lineStartsAfter]
    split
    · exact .cons (fun _ h => (mem_lineStartsAfter h).1) (ih _)
    · exact ih _

/-! ## Searching -/

section Search

variable {numbers : List Nat} {x low high index : Nat}

/-- The place of `x` lies from position `low` to position `high`. -/
structure Enclosed (numbers : List Nat) (x low high : Nat) : Prop where
  low_le : low ≤ high
  high_le : high ≤ numbers.length
  smaller : ∀ i (h : i < numbers.length), i < low → numbers[i] < x
  larger : ∀ i (h : i < numbers.length), high ≤ i → x < numbers[i]

/-- What the end of a search tells. -/
def SearchResult.Holds (numbers : List Nat) (x : Nat) : SearchResult → Prop
  | .found index => ∃ h : index < numbers.length, numbers[index] = x
  | .absent index => Enclosed numbers x index index

/-- Among increasing numbers, halving keeps the place of `x` enclosed until it is found. -/
theorem searchBetween_holds (hnumbers : numbers.Pairwise (· < ·))
    (h : Enclosed numbers x low high) : (searchBetween numbers x low high).Holds numbers x := by
  have hmono : ∀ i j (hi : i < numbers.length) (hj : j < numbers.length), i < j →
      numbers[i] < numbers[j] := List.pairwise_iff_getElem.mp hnumbers
  induction hsize : high - low using Nat.strongRecOn generalizing low high with
  | ind size ih =>
    have hlow := h.low_le
    rw [searchBetween]
    split
    · next hlt =>
      have hmiddle : low + (high - low) / 2 < high := by omega
      have hin : low + (high - low) / 2 < numbers.length := Nat.lt_of_lt_of_le hmiddle h.high_le
      dsimp only
      rw [List.getD_eq_getElem?_getD, List.getElem?_eq_getElem hin, Option.getD_some]
      split
      · next heq => exact ⟨hin, heq⟩
      · next hne =>
        split
        · next hsmaller =>
          -- all up to the middle are smaller, since the numbers increase
          refine ih _ (by omega) ⟨by omega, h.high_le, fun i hi hlt => ?_, h.larger⟩ rfl
          rcases Nat.lt_succ_iff_lt_or_eq.mp hlt with hlt | rfl
          · exact Nat.lt_trans (hmono _ _ hi hin hlt) hsmaller
          · exact hsmaller
        · next hnotSmaller =>
          have hlarger : x < numbers[low + (high - low) / 2] := by omega
          refine ih _ (by omega) ⟨by omega, by omega, h.smaller, fun i hi hle => ?_⟩ rfl
          rcases Nat.lt_or_eq_of_le hle with hlt | rfl
          · exact Nat.lt_trans hlarger (hmono _ _ hin hi hlt)
          · exact hlarger
    · next hge =>
      obtain rfl : low = high := by omega
      exact h

theorem binarySearch_holds (hnumbers : numbers.Pairwise (· < ·)) (x : Nat) :
    (binarySearch numbers x).Holds numbers x :=
  searchBetween_holds hnumbers ⟨Nat.zero_le _, le_rfl, fun _ _ h => absurd h (Nat.not_lt_zero _),
    fun _ hi hle => absurd hi (Nat.not_lt.mpr hle)⟩

/-- A position tells how many numbers are not larger than `x`, when they all stand before it. -/
theorem length_filter_le_eq (hindex : index ≤ numbers.length)
    (hsmaller : ∀ i (h : i < numbers.length), i < index → numbers[i] ≤ x)
    (hlarger : ∀ i (h : i < numbers.length), index ≤ i → x < numbers[i]) :
    (numbers.filter (· ≤ x)).length = index := by
  have hbefore : (numbers.take index).filter (· ≤ x) = numbers.take index := by
    refine List.filter_eq_self.mpr fun y hy => ?_
    obtain ⟨i, hi, rfl⟩ := List.getElem_of_mem hy
    rw [List.length_take] at hi
    rw [List.getElem_take]
    simpa using hsmaller i (by omega) (by omega)
  have hafter : (numbers.drop index).filter (· ≤ x) = [] := by
    refine List.filter_eq_nil_iff.mpr fun y hy => ?_
    obtain ⟨i, hi, rfl⟩ := List.getElem_of_mem hy
    rw [List.length_drop] at hi
    rw [List.getElem_drop]
    simpa using hlarger (index + i) (by omega) (by omega)
  rw [← List.take_append_drop index numbers, List.filter_append, hbefore, hafter, List.append_nil,
    List.length_take, Nat.min_eq_left hindex]

/-- A number that is found stands behind the smaller ones. -/
theorem SearchResult.Holds.count_found (hnumbers : numbers.Pairwise (· < ·))
    (h : (SearchResult.found index).Holds numbers x) :
    (numbers.filter (· ≤ x)).length = index + 1 := by
  obtain ⟨hindex, rfl⟩ := h
  have hmono : ∀ i j (hi : i < numbers.length) (hj : j < numbers.length), i < j →
      numbers[i] < numbers[j] := List.pairwise_iff_getElem.mp hnumbers
  refine length_filter_le_eq hindex (fun i hi hlt => ?_) fun i hi hle => hmono _ _ _ hi hle
  rcases Nat.lt_succ_iff_lt_or_eq.mp hlt with hlt | rfl
  · exact Nat.le_of_lt (hmono _ _ hi _ hlt)
  · exact le_rfl

/-- A number that is absent would have its place behind the smaller ones. -/
theorem SearchResult.Holds.count_absent (h : (SearchResult.absent index).Holds numbers x) :
    (numbers.filter (· ≤ x)).length = index :=
  length_filter_le_eq h.high_le (fun i hi hlt => Nat.le_of_lt (h.smaller i hi hlt)) h.larger

end Search

namespace LineTable

variable {text : String}

theorem pairwise_starts (text : String) : (ofText text).starts.Pairwise (· < ·) :=
  .cons (fun _ h => (mem_lineStartsAfter h).1) (pairwise_lineStartsAfter _ _)

theorem lineCount_ofText (text : String) : (ofText text).lineCount = 1 + text.toList.count '\n' := by
  rw [lineCount, ofText, List.length_cons, length_lineStartsAfter, Nat.add_comm]

/-- The search for an offset, found or not, gives the number of lines that start up to it. -/
theorem lineAt_ofText (text : String) (offset : Nat) : (ofText text).lineAt offset =
    1 + ((lineStartsAfter text.toList 0).filter (· ≤ offset)).length := by
  have hcount : ((ofText text).starts.filter (· ≤ offset)).length =
      1 + ((lineStartsAfter text.toList 0).filter (· ≤ offset)).length := by
    rw [ofText, List.filter_cons_of_pos (by simp), List.length_cons, Nat.add_comm]
  have hsearch := binarySearch_holds (pairwise_starts text) offset
  rw [lineAt]
  cases hresult : binarySearch (ofText text).starts offset with
  | found exact =>
    rw [hresult] at hsearch
    exact ((hsearch.count_found (pairwise_starts text)).symm.trans hcount)
  | absent insert =>
    -- the first line starts at zero, so the place is never in front of it
    rw [hresult] at hsearch
    have hinsert := hsearch.count_absent.symm.trans hcount
    have hpos : 1 ≤ insert := hinsert ▸ Nat.le_add_right _ _
    exact (Nat.sub_add_cancel hpos).trans hinsert

/-! ## Places -/

/-- A beginning of a text after which a line starts. -/
def EndsLine (head : List Char) : Prop := head = [] ∨ ∃ rest, head = rest ++ ['\n']

/-- A text in front of an offset ends with what stands on the line of the offset. -/
theorem exists_lastLine (cs : List Char) :
    ∃ head tail, cs = head ++ tail ∧ '\n' ∉ tail ∧ EndsLine head := by
  induction cs using List.reverseRecOn with
  | nil => exact ⟨[], [], rfl, List.not_mem_nil, .inl rfl⟩
  | append_singleton cs c ih =>
    obtain ⟨head, tail, rfl, htail, hhead⟩ := ih
    by_cases hc : c = '\n'
    · subst hc
      exact ⟨head ++ tail ++ ['\n'], [], by simp, List.not_mem_nil, .inr ⟨_, rfl⟩⟩
    · exact ⟨head, tail ++ [c], by simp, by simpa [htail, eq_comm] using hc, hhead⟩

/-- The line that goes on after a beginning of the text starts where that ends. -/
theorem getElem?_starts {head after : List Char} (htext : text.toList = head ++ after)
    (hhead : EndsLine head) :
    (ofText text).starts[head.count '\n']? = some (byteLength head) := by
  rw [ofText, htext]
  rcases hhead with rfl | ⟨rest, rfl⟩
  · rfl
  · rw [List.count_append, List.count_singleton_self, List.getElem?_cons_succ, List.append_assoc,
      lineStartsAfter_append, List.getElem?_append_right (by rw [length_lineStartsAfter]),
      length_lineStartsAfter, Nat.sub_self, byteLength_append, Nat.zero_add]
    rfl

theorem lineAt_byteLength {before after : List Char} (htext : text.toList = before ++ after) :
    (ofText text).lineAt (byteLength before) = 1 + before.count '\n' := by
  have hbefore : (lineStartsAfter before 0).filter (· ≤ byteLength before) =
      lineStartsAfter before 0 :=
    List.filter_eq_self.mpr fun s hs => by
      have := mem_lineStartsAfter hs
      simp only [decide_eq_true_eq]
      omega
  have hafter : (lineStartsAfter after (0 + byteLength before)).filter (· ≤ byteLength before) = [] :=
    List.filter_eq_nil_iff.mpr fun s hs => by
      have := mem_lineStartsAfter hs
      simp only [decide_eq_true_eq]
      omega
  rw [lineAt_ofText, htext, lineStartsAfter_append, List.filter_append, hbefore, hafter,
    List.append_nil, length_lineStartsAfter]

/-- The line of an offset is told by the newlines in front of it, its column by the characters since
the last one. -/
theorem lineColumn_byteLength {head tail after : List Char}
    (htext : text.toList = head ++ (tail ++ after)) (htail : '\n' ∉ tail) (hhead : EndsLine head) :
    (ofText text).lineColumn (byteLength head + byteLength tail) =
      (1 + head.count '\n', 1 + tail.length) := by
  have hline : (ofText text).lineAt (byteLength head + byteLength tail) = 1 + head.count '\n' := by
    rw [← byteLength_append, lineAt_byteLength (by rw [htext, List.append_assoc]),
      List.count_append, List.count_eq_zero.mpr htail, Nat.add_zero]
  have hstart := getElem?_starts htext hhead
  have hslice : sliceBytes? text.toList (byteLength head) (byteLength head + byteLength tail) =
      some tail := sliceBytes?_eq_some.mpr ⟨head, after, htext, rfl, rfl⟩
  have hstop : max (min (byteLength head + byteLength tail) (byteLength text.toList))
      (byteLength head) = byteLength head + byteLength tail := by
    rw [htext, byteLength_append, byteLength_append]
    omega
  unfold lineColumn
  dsimp only
  rw [hline, Nat.add_sub_cancel_left, List.getD_eq_getElem?_getD, hstart, Option.getD_some]
  rw [show (ofText text).chars = text.toList from rfl, hstop, hslice]
  rw [Option.map_some, Option.getD_some, Nat.add_comm tail.length]

/-- A character boundary cuts the text in two. -/
theorem exists_of_isValid {offset : Nat} (h : (⟨offset⟩ : String.Pos.Raw).IsValid text) :
    ∃ before after, text.toList = before ++ after ∧ byteLength before = offset := by
  obtain ⟨s, t, rfl, hpos⟩ := String.Pos.Raw.isValid_iff_exists_append.mp h
  refine ⟨s.toList, t.toList, String.toList_append, ?_⟩
  rw [byteLength_toList, ← String.byteIdx_rawEndPos, ← hpos]

/-- Of two places in a text the later one is on a later line, or further on in the same line. -/
theorem lineColumn_lt {a b : Nat} (ha : (⟨a⟩ : String.Pos.Raw).IsValid text)
    (hb : (⟨b⟩ : String.Pos.Raw).IsValid text) (h : a < b) :
    toLex ((ofText text).lineColumn a) < toLex ((ofText text).lineColumn b) := by
  obtain ⟨before, after, htext, rfl⟩ := exists_of_isValid ha
  obtain ⟨before', after', htext', rfl⟩ := exists_of_isValid hb
  obtain ⟨between, rfl, rfl⟩ : ∃ between, before' = before ++ between ∧
      after = between ++ after' := by
    rcases List.append_eq_append_iff.mp (htext.symm.trans htext') with
      ⟨between, h₁, h₂⟩ | ⟨between, h₁, -⟩
    · exact ⟨between, h₁, h₂⟩
    · rw [h₁, byteLength_append] at h
      omega
  obtain ⟨head, tail, rfl, htail, hhead⟩ := exists_lastLine before
  rw [byteLength_append, lineColumn_byteLength (by rw [htext, List.append_assoc]) htail hhead]
  by_cases hnewline : '\n' ∈ between
  · -- there is a newline between the places
    obtain ⟨head', tail', hsplit, htail', hhead'⟩ := exists_lastLine (head ++ tail ++ between)
    have hcount := congrArg (List.count '\n') hsplit
    have hpos := List.count_pos_iff.mpr hnewline
    rw [List.count_append, List.count_append, List.count_append, List.count_eq_zero.mpr htail,
      List.count_eq_zero.mpr htail'] at hcount
    rw [hsplit, byteLength_append,
      lineColumn_byteLength (by rw [htext', hsplit, List.append_assoc]) htail' hhead']
    exact Prod.Lex.toLex_lt_toLex.mpr (.inl (by dsimp only; omega))
  · have hlen : 0 < between.length := by
      refine List.length_pos_iff.mpr ?_
      rintro rfl
      simp at h
    rw [List.append_assoc, byteLength_append, lineColumn_byteLength
      (by rw [htext, List.append_assoc, List.append_assoc, ← List.append_assoc tail])
      (by simp [htail, hnewline]) hhead, List.length_append]
    exact Prod.Lex.toLex_lt_toLex.mpr (.inr ⟨rfl, by dsimp only; omega⟩)

/-! ## Texts of lines -/

theorem length_splitOn (cs : List Char) : (cs.splitOn '\n').length = 1 + cs.count '\n' := by
  induction cs with
  | nil => rfl
  | cons c cs ih =>
    rw [List.splitOn_cons_eq_if_modifyHead, List.count_cons]
    split
    · rw [List.length_cons, ih]
      omega
    · rw [List.length_modifyHead, ih]
      omega

/-- A line stands between the place where it starts and the newline in front of the next one.  The
lines are those of a text that begins at an offset. -/
theorem exists_line (start : Nat) {i : Nat} {line : List Char}
    (h : (cs.splitOn '\n')[i]? = some line) :
    ∃ mid after, cs = mid ++ (line ++ after) ∧
      (start :: lineStartsAfter cs start)[i]? = some (start + byteLength mid) ∧
      ((lineStartsAfter cs start)[i]?).elim (start + byteLength cs) (· - 1) =
        start + byteLength mid + byteLength line := by
  induction cs generalizing start i line with
  | nil =>
    cases i with
    | zero =>
      obtain rfl : [] = line := by simpa using h
      exact ⟨[], [], rfl, rfl, rfl⟩
    | succ i => cases h
  | cons c cs ih =>
    rw [List.splitOn_cons_eq_if_modifyHead] at h
    have hlen : start + byteLength (c :: cs) = start + c.utf8Size + byteLength cs := by
      rw [byteLength_cons, Nat.add_assoc]
    have hmid : ∀ mid, start + byteLength (c :: mid) = start + c.utf8Size + byteLength mid :=
      fun mid => by rw [byteLength_cons, Nat.add_assoc]
    by_cases hc : c = '\n'
    · subst hc
      rw [if_pos (beq_self_eq_true _)] at h
      rw [lineStartsAfter, if_pos rfl]
      cases i with
      | zero =>
        obtain rfl : [] = line := by simpa using h
        exact ⟨[], '\n' :: cs, rfl, rfl, rfl⟩
      | succ i =>
        obtain ⟨mid, after, rfl, hstart, hstop⟩ := ih (start + ('\n').utf8Size) h
        refine ⟨'\n' :: mid, after, rfl, ?_, ?_⟩
        · rw [List.getElem?_cons_succ, hstart, hmid]
        · rw [List.getElem?_cons_succ, hlen, hstop, hmid]
    · rw [if_neg (by simpa using hc)] at h
      rw [lineStartsAfter, if_neg hc]
      cases i with
      | zero =>
        -- the character goes in front of what the rest begins with
        obtain ⟨line, hline, rfl⟩ : ∃ l, (cs.splitOn '\n')[0]? = some l ∧ c :: l = line := by
          cases hsplit : cs.splitOn '\n' with
          | nil => exact absurd hsplit (List.splitOn_ne_nil _ _)
          | cons l ls => simpa [hsplit] using h
        obtain ⟨mid, after, rfl, hstart, hstop⟩ := ih (start + c.utf8Size) hline
        obtain rfl : mid = [] := by
          rw [← byteLength_eq_zero_iff]
          simpa using hstart
        refine ⟨[], after, rfl, rfl, ?_⟩
        rw [hlen, hstop, byteLength_cons, byteLength_nil]
        omega
      | succ i =>
        have hline : (cs.splitOn '\n')[i + 1]? = some line := by
          rw [← h]
          cases cs.splitOn '\n' <;> rfl
        obtain ⟨mid, after, rfl, hstart, hstop⟩ := ih (start + c.utf8Size) hline
        refine ⟨c :: mid, after, rfl, ?_, ?_⟩
        · rw [List.getElem?_cons_succ] at hstart ⊢
          rw [hstart, hmid]
        · rw [hlen, hstop, hmid]

/-- The texts of the lines are the pieces between the newlines, less the carriage returns they end
with. -/
theorem lineText?_succ (text : String) (i : Nat) : (ofText text).lineText? (i + 1) =
    ((text.toList.splitOn '\n')[i]?).map fun line => String.ofList (dropReturns line) := by
  cases h : (text.toList.splitOn '\n')[i]? with
  | none =>
    have hge : (ofText text).starts.length ≤ i := by
      have hlen := lineCount_ofText text
      rw [← length_splitOn] at hlen
      exact hlen.trans_le (List.getElem?_eq_none_iff.mp h)
    unfold lineText?
    dsimp only
    rw [List.getElem?_eq_none hge]
    rfl
  | some line =>
    obtain ⟨mid, after, htext, hstart, hstop⟩ := exists_line 0 h
    rw [Nat.zero_add] at hstart hstop
    have hslice : sliceBytes? text.toList (byteLength mid) (byteLength mid + byteLength line) =
        some line := sliceBytes?_eq_some.mpr ⟨mid, after, htext, rfl, rfl⟩
    unfold lineText?
    dsimp only
    rw [show (ofText text).starts = 0 :: lineStartsAfter text.toList 0 from rfl,
      show (ofText text).chars = text.toList from rfl, hstart, List.getElem?_cons_succ]
    cases hnext : (lineStartsAfter text.toList 0)[i]? <;> rw [hnext] at hstop <;>
      simp only [Option.elim_none, Option.elim_some, Nat.zero_add] at hstop <;>
      simp [hstop, hslice]

theorem isSome_lineText? (text : String) (n : Nat) :
    ((ofText text).lineText? n).isSome ↔ 1 ≤ n ∧ n ≤ (ofText text).lineCount := by
  cases n with
  | zero => simp [lineText?]
  | succ i =>
    rw [lineText?_succ, Option.isSome_map, Option.isSome_iff_ne_none, ne_eq,
      List.getElem?_eq_none_iff, length_splitOn, lineCount_ofText]
    omega

theorem dropReturns_eq_self (h : '\r' ∉ cs) : dropReturns cs = cs := by
  have hself : cs.reverse.dropWhile (· = '\r') = cs.reverse := by
    cases hcs : cs.reverse with
    | nil => rfl
    | cons c rest =>
      have hc : c ≠ '\r' := fun hc => h (by
        rw [← List.mem_reverse, hcs, hc]
        exact List.mem_cons_self)
      rw [List.dropWhile_cons_of_neg (by simpa using hc)]
  rw [dropReturns, hself, List.reverse_reverse]

theorem intercalate_lineTexts (h : '\r' ∉ text.toList) : ∃ lines : List String,
    (List.range' 1 (ofText text).lineCount).map (ofText text).lineText? = lines.map some ∧
      "\n".intercalate lines = text := by
  have hline : ∀ line ∈ text.toList.splitOn '\n', dropReturns line = line := by
    intro line hmem
    obtain ⟨i, hi⟩ := List.mem_iff_getElem?.mp hmem
    obtain ⟨mid, after, htext, -⟩ := exists_line 0 hi
    refine dropReturns_eq_self fun hr => h ?_
    rw [htext]
    simp [hr]
  refine ⟨(text.toList.splitOn '\n').map String.ofList, ?_, ?_⟩
  · refine List.ext_getElem (by simp [lineCount_ofText, length_splitOn]) fun i hi hi' => ?_
    rw [List.length_map, List.length_map] at hi'
    simp only [List.getElem_map, List.getElem_range', Nat.one_mul]
    rw [Nat.add_comm, lineText?_succ, List.getElem?_eq_getElem hi', Option.map_some,
      hline _ (List.getElem_mem hi')]
  · have hlists : String.toList ∘ String.ofList = id := funext fun _ => String.toList_ofList
    rw [← String.toList_inj, String.toList_intercalate, List.map_map, hlists, List.map_id]
    exact List.intercalate_splitOn '\n'

/-- The line of an offset is one more than the number of newline bytes in front of it.  At a character
boundary the column is one more than the number of characters since the line started, and later places
come later in the lexicographic order of line and column.  The lines that have a text are those from
the first to the last, and without carriage returns their texts, joined by newlines, are the text. -/
theorem lineTable_places (text : String) :
    let table := ofText text
    (∀ offset, table.lineAt offset = 1 +
      (text.toByteArray.data.toList.take (min offset text.utf8ByteSize)).count 10) ∧
    (∀ offset, (⟨offset⟩ : String.Pos.Raw).IsValid text → ∃ head line rest : String,
      text = head ++ line ++ rest ∧ '\n' ∉ line.toList ∧
        (head = "" ∨ ∃ s : String, head = s ++ "\n") ∧
        table.starts[table.lineAt offset - 1]? = some head.utf8ByteSize ∧
        offset = head.utf8ByteSize + line.utf8ByteSize ∧
        table.lineColumn offset = (table.lineAt offset, 1 + line.length)) ∧
    (∀ a b, (⟨a⟩ : String.Pos.Raw).IsValid text → (⟨b⟩ : String.Pos.Raw).IsValid text → a < b →
      toLex (table.lineColumn a) < toLex (table.lineColumn b)) ∧
    (∀ n, (table.lineText? n).isSome ↔ 1 ≤ n ∧ n ≤ table.lineCount) ∧
    ('\r' ∉ text.toList → ∃ lines : List String,
      (List.range' 1 table.lineCount).map table.lineText? = lines.map some ∧
        "\n".intercalate lines = text) := by
  refine ⟨fun offset => ?_, fun offset hvalid => ?_, fun a b => lineColumn_lt,
    isSome_lineText? text, intercalate_lineTexts⟩
  · rw [lineAt_ofText, length_filter_lineStartsAfter (Nat.zero_le offset), bytes_eq, Nat.sub_zero,
      ← byteLength_toList, ← length_flatMap_encode, List.take_eq_take_min]
  · obtain ⟨before, after, htext, rfl⟩ := exists_of_isValid hvalid
    obtain ⟨head, line, rfl, hline, hhead⟩ := exists_lastLine before
    rw [List.append_assoc] at htext
    have hcolumn := lineColumn_byteLength htext hline hhead
    have hat : (ofText text).lineAt (byteLength head + byteLength line) = 1 + head.count '\n' := by
      change ((ofText text).lineColumn (byteLength head + byteLength line)).1 = _
      rw [hcolumn]
    have hsize : ∀ cs, (String.ofList cs).utf8ByteSize = byteLength cs := fun cs => by
      rw [← byteLength_toList, String.toList_ofList]
    refine ⟨String.ofList head, String.ofList line, String.ofList after, ?_, ?_, ?_, ?_, ?_, ?_⟩
    · rw [← String.ofList_append, ← String.ofList_append, List.append_assoc, ← htext,
        String.ofList_toList]
    · rwa [String.toList_ofList]
    · refine hhead.imp (fun h => by rw [h, String.ofList_nil]) fun ⟨rest, h⟩ => ?_
      exact ⟨String.ofList rest, by rw [h, String.ofList_append]⟩
    · rw [byteLength_append, hat, Nat.add_sub_cancel_left, getElem?_starts htext hhead, hsize]
    · rw [hsize, hsize, byteLength_append]
    · rw [byteLength_append, hcolumn, hat, String.length_ofList]

/-- In a text with a character of two bytes and an empty line, the place after that line is behind
the place after that character. -/
theorem lineTable_places_accented :
    let text := "é\n\nx"
    let table := ofText text
    (⟨2⟩ : String.Pos.Raw).IsValid text ∧ (⟨4⟩ : String.Pos.Raw).IsValid text ∧
      '\r' ∉ text.toList ∧ table.lineColumn 2 = (1, 2) ∧ table.lineColumn 4 = (3, 1) ∧
      toLex (table.lineColumn 2) < toLex (table.lineColumn 4) ∧
      ∃ lines : List String, (List.range' 1 table.lineCount).map table.lineText? = lines.map some ∧
        "\n".intercalate lines = text := by
  have hvalid : ∀ s t : String, s ++ t = "é\n\nx" → s.rawEndPos.IsValid "é\n\nx" :=
    fun s t h => String.Pos.Raw.isValid_iff_exists_append.mpr ⟨s, t, h.symm, rfl⟩
  have h₂ : (⟨2⟩ : String.Pos.Raw).IsValid "é\n\nx" := hvalid "é" "\n\nx" rfl
  have h₄ : (⟨4⟩ : String.Pos.Raw).IsValid "é\n\nx" := hvalid "é\n\n" "x" rfl
  have hreturn : '\r' ∉ "é\n\nx".toList := by decide
  obtain ⟨-, -, hlt, -, hjoin⟩ := lineTable_places "é\n\nx"
  exact ⟨h₂, h₄, hreturn, by decide +kernel, by decide +kernel, hlt 2 4 h₂ h₄ (by decide), hjoin hreturn⟩

end LineTable

end ConstraintTyping
