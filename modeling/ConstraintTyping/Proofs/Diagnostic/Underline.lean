import ConstraintTyping.Diagnostic.Render
import ConstraintTyping.Proofs.Source.Lines
import Mathlib.Data.List.DropRight
import Mathlib.Data.Nat.PSub

/-!
# The underline of a label

A label is drawn as the line on which its span starts, above a row of marks.  Both rows begin with a
margin of the same width, so a mark stands below the character at its place in the line.  A span
inside a line has one mark below each of its characters.  One that goes on over a newline has its
marks from where it starts up to the end of the line as it is quoted, which is without the carriage
returns at the end of it; where none would be left, it has one.  Every other pair of offsets is drawn
as well: no subtraction takes more than there is, and no line is asked for that there is not.
-/

namespace ConstraintTyping

namespace LineTable

variable {text : String} {cs head left part after line rest : List Char} {n offset : Nat}

/-! ## Ends of lines -/

/-- A rest of a text in front of which a line ends. -/
def StartsRest (rest : List Char) : Prop := rest = [] ∨ ∃ more, rest = '\n' :: more

/-- What follows a place in a text begins with what stands on the line of the place. -/
theorem exists_firstLine (cs : List Char) :
    ∃ line rest, cs = line ++ rest ∧ '\n' ∉ line ∧ StartsRest rest := by
  induction cs with
  | nil => exact ⟨[], [], rfl, List.not_mem_nil, .inl rfl⟩
  | cons c cs ih =>
    by_cases hc : c = '\n'
    · subst hc
      exact ⟨[], '\n' :: cs, rfl, List.not_mem_nil, .inr ⟨cs, rfl⟩⟩
    · obtain ⟨line, rest, rfl, hline, hrest⟩ := ih
      exact ⟨c :: line, rest, rfl, by simpa [hline, eq_comm] using hc, hrest⟩

theorem dropReturns_eq_rdropWhile (cs : List Char) : dropReturns cs = cs.rdropWhile (· = '\r') := rfl

/-- What is dropped from the end of a line are carriage returns. -/
theorem exists_dropReturns (cs : List Char) : ∃ n, cs = dropReturns cs ++ List.replicate n '\r' := by
  refine ⟨(cs.rtakeWhile (· = '\r')).length, ?_⟩
  have hreturns : cs.rtakeWhile (· = '\r') =
      List.replicate (cs.rtakeWhile (· = '\r')).length '\r' :=
    List.eq_replicate_iff.mpr ⟨rfl, fun c hc => by simpa using List.mem_rtakeWhile_imp hc⟩
  rw [← hreturns, dropReturns_eq_rdropWhile, List.rdropWhile_append_rtakeWhile]

/-- No carriage return is left at the end. -/
theorem dropReturns_ne (cs xs : List Char) : dropReturns cs ≠ xs ++ ['\r'] := by
  intro heq
  have hne : cs.rdropWhile (· = '\r') ≠ [] := by
    rw [← dropReturns_eq_rdropWhile, heq]
    simp
  apply List.rdropWhile_last_not (· = '\r') cs hne
  simp only [← dropReturns_eq_rdropWhile, heq]
  simp

/-- A line is kept up to its last character that is no carriage return. -/
theorem exists_dropReturns_append {c : Char} (hc : c ≠ '\r') (xs ys : List Char) :
    ∃ zs, dropReturns (xs ++ c :: ys) = xs ++ c :: zs := by
  induction ys using List.reverseRecOn with
  | nil => exact ⟨[], List.rdropWhile_concat_neg _ _ _ (by simpa using hc)⟩
  | append_singleton ys d ih =>
    have hsplit : xs ++ c :: (ys ++ [d]) = xs ++ c :: ys ++ [d] := by simp
    rw [hsplit, dropReturns_eq_rdropWhile, List.rdropWhile_concat]
    split
    · exact ih
    · exact ⟨ys ++ [d], hsplit.symm⟩

/-- The text of the line that starts after a beginning of the text. -/
theorem lineText?_of_split (htext : text.toList = head ++ (line ++ rest)) (hhead : EndsLine head)
    (hline : '\n' ∉ line) (hrest : StartsRest rest) :
    (ofText text).lineText? (1 + head.count '\n') = some (String.ofList (dropReturns line)) := by
  have hslice : sliceBytes? text.toList (byteLength head) (byteLength head + byteLength line) =
      some line := sliceBytes?_eq_some.mpr ⟨head, rest, htext, rfl, rfl⟩
  have hstop : ((ofText text).starts[head.count '\n' + 1]?).elim (byteLength text.toList) (· - 1) =
      byteLength head + byteLength line := by
    rcases hrest with rfl | ⟨more, rfl⟩
    · -- the last line ends with the text
      have hcount : text.toList.count '\n' = head.count '\n' := by
        rw [htext, List.count_append, List.append_nil, List.count_eq_zero.mpr hline, Nat.add_zero]
      have hlast : (ofText text).starts[head.count '\n' + 1]? = none := by
        rw [List.getElem?_eq_none_iff]
        show (ofText text).lineCount ≤ _
        rw [lineCount_ofText, hcount]
        omega
      rw [hlast, htext]
      simp
    · -- the next line starts behind the newline
      have htext' : text.toList = (head ++ line ++ ['\n']) ++ more := by
        rw [htext]
        simp
      have hnext := getElem?_starts htext' (.inr ⟨_, rfl⟩)
      rw [List.count_append, List.count_append, List.count_eq_zero.mpr hline, Nat.add_zero,
        List.count_singleton_self] at hnext
      rw [hnext, byteLength_append, byteLength_append]
      rfl
  rw [Nat.add_comm]
  unfold lineText?
  dsimp only
  rw [getElem?_starts htext hhead, show (ofText text).chars = text.toList from rfl]
  cases hnext : (ofText text).starts[head.count '\n' + 1]? <;> rw [hnext] at hstop <;>
    simp only [Option.elim_none, Option.elim_some] at hstop <;> simp [hstop, hslice]

/-- A line of a text as it is quoted: it starts with the text or after a newline, and stands in front
of the carriage returns that end it, which are followed by a newline or by nothing. -/
structure QuotedLine (text head quoted : String) : Prop where
  starts : head = "" ∨ ∃ s : String, head = s ++ "\n"
  ends : ∃ (n : Nat) (rest : String), text = head ++ quoted ++ replicateChar n '\r' ++ rest ∧
    (rest = "" ∨ ∃ s : String, rest = "\n" ++ s)
  newline : '\n' ∉ quoted.toList
  trimmed : ∀ s : String, quoted ≠ s ++ "\r"

theorem quotedLine_of_split {line rest : List Char} (htext : text.toList = head ++ (line ++ rest))
    (hhead : EndsLine head) (hline : '\n' ∉ line) (hrest : StartsRest rest) :
    QuotedLine text (String.ofList head) (String.ofList (dropReturns line)) := by
  obtain ⟨n, hn⟩ := exists_dropReturns line
  refine ⟨?_, ⟨n, String.ofList rest, ?_, ?_⟩, ?_, ?_⟩
  · refine hhead.imp (fun h => by rw [h, String.ofList_nil]) fun ⟨s, h⟩ => ?_
    exact ⟨String.ofList s, by rw [h, String.ofList_append]⟩
  · rw [replicateChar, ← String.ofList_append, ← String.ofList_append, ← String.ofList_append,
      List.append_assoc head, ← hn, List.append_assoc, ← htext, String.ofList_toList]
  · refine hrest.imp (fun h => by rw [h, String.ofList_nil]) fun ⟨s, h⟩ => ?_
    exact ⟨String.ofList s, by rw [h, ← String.ofList_append]; rfl⟩
  · rw [String.toList_ofList]
    intro hmem
    rw [hn] at hline
    exact hline (List.mem_append_left _ hmem)
  · intro s heq
    apply dropReturns_ne line s.toList
    have htoList := congrArg String.toList heq
    rw [String.toList_ofList, String.toList_append] at htoList
    exact htoList

/-! ## Subtractions and reads that can fail -/

/-- Line and column of an offset, where there is such a line. -/
def checkedLineColumn (t : LineTable) (offset : Nat) : Option (Nat × Nat) := do
  let line := t.lineAt offset
  let i ← line.psub 1
  let start ← t.starts[i]?
  let stop := max (min offset (byteLength t.chars)) start
  return (line, ((sliceBytes? t.chars start stop).map List.length).getD 0 + 1)

/-- The text of a line, where the next one does not start at the beginning of the text. -/
def checkedLineText (t : LineTable) (line : Nat) : Option String := do
  let i ← line.psub 1
  let start ← t.starts[i]?
  let stop ← match t.starts[i + 1]? with
    | some next => next.psub 1
    | none => some (byteLength t.chars)
  let cs ← sliceBytes? t.chars start stop
  return String.ofList (dropReturns cs)

/-- Every offset is on one of the lines. -/
theorem lineAt_mem (text : String) (offset : Nat) : 1 ≤ (ofText text).lineAt offset ∧
    (ofText text).lineAt offset ≤ (ofText text).lineCount := by
  rw [lineAt_ofText, lineCount_ofText, ← length_lineStartsAfter text.toList 0]
  have := List.length_filter_le (fun s => decide (s ≤ offset)) (lineStartsAfter text.toList 0)
  omega

theorem checkedLineColumn_eq (text : String) (offset : Nat) :
    (ofText text).checkedLineColumn offset = some ((ofText text).lineColumn offset) := by
  obtain ⟨hpos, hle⟩ := lineAt_mem text offset
  have hlt : (ofText text).lineAt offset - 1 < (ofText text).starts.length := by
    rw [lineCount] at hle
    omega
  unfold checkedLineColumn lineColumn
  simp only [Nat.psub_eq_sub hpos, List.getElem?_eq_getElem hlt, List.getD_eq_getElem?_getD,
    Option.getD_some, Option.bind_eq_bind, Option.bind_some]
  rfl

theorem checkedLineText_eq (text : String) {line : Nat} (h : 1 ≤ line) :
    (ofText text).checkedLineText line = (ofText text).lineText? line := by
  obtain ⟨i, rfl⟩ := Nat.exists_eq_add_of_le' h
  unfold checkedLineText lineText?
  have hpred : (i + 1).psub 1 = some i := Nat.psub_eq_sub (Nat.le_add_left 1 i)
  simp only [hpred, Option.bind_eq_bind, Option.bind_some]
  cases hnext : (ofText text).starts[i + 1]? with
  | none => rfl
  | some next =>
    have hmem : next ∈ lineStartsAfter text.toList 0 := List.mem_of_getElem? hnext
    have hpos := (mem_lineStartsAfter hmem).1
    simp only [Nat.psub_eq_sub hpos, Option.bind_some]

end LineTable

namespace SourceFile

open LineTable

variable {name text : String} {head left part after : List Char} {span : Span}

/-- The underline of a span, where no subtraction takes more than there is and every line that is
asked for is there. -/
def checkedUnderline (file : SourceFile) (span : Span) : Option Underline := do
  let (line, column) ← file.lines.checkedLineColumn span.start
  let (stopLine, stopColumn) ← file.lines.checkedLineColumn span.stop
  let quoted ← file.lines.checkedLineText line
  let indent := min (column - 1) quoted.length
  let width ← if stopLine = line then some (stopColumn - column) else quoted.length.psub indent
  return { line, column, stopLine, stopColumn, quoted, indent, width := max width 1 }

/-- The underline by the places of the two ends of a span and the line that it starts on. -/
theorem underline_eq {file : SourceFile} {line column stopLine stopColumn : Nat} {quoted : String}
    (hstart : file.lines.lineColumn span.start = (line, column))
    (hstop : file.lines.lineColumn span.stop = (stopLine, stopColumn))
    (hquoted : file.lines.lineText? line = some quoted) :
    file.underline span =
      { line, column, stopLine, stopColumn, quoted
        indent := min (column - 1) quoted.length
        width := max (if stopLine = line then stopColumn - column
          else quoted.length - min (column - 1) quoted.length) 1 } := by
  unfold underline
  rw [hstart, hstop]
  simp only [hquoted, Option.getD_some]

/-- There is a line of the text on which an offset is. -/
theorem exists_lineText? {offset line column : Nat}
    (h : (LineTable.ofText text).lineColumn offset = (line, column)) :
    1 ≤ line ∧ ∃ quoted, (LineTable.ofText text).lineText? line = some quoted := by
  obtain rfl : (LineTable.ofText text).lineAt offset = line := congrArg Prod.fst h
  have hmem := lineAt_mem text offset
  exact ⟨hmem.1, Option.isSome_iff_exists.mp ((isSome_lineText? text _).mpr hmem)⟩

/-- Every pair of offsets has an underline. -/
theorem checkedUnderline_eq (name text : String) (span : Span) :
    (SourceFile.ofText name text).checkedUnderline span =
      some ((SourceFile.ofText name text).underline span) := by
  obtain ⟨⟨line, column⟩, hstart⟩ : ∃ place, (LineTable.ofText text).lineColumn span.start = place :=
    ⟨_, rfl⟩
  obtain ⟨⟨stopLine, stopColumn⟩, hstop⟩ :
      ∃ place, (LineTable.ofText text).lineColumn span.stop = place := ⟨_, rfl⟩
  obtain ⟨hline, quoted, hquoted⟩ := exists_lineText? hstart
  have hunderline : (SourceFile.ofText name text).underline span = _ :=
    underline_eq hstart hstop hquoted
  rw [hunderline]
  unfold checkedUnderline
  simp only [SourceFile.ofText, checkedLineColumn_eq, checkedLineText_eq text hline, hstart, hstop,
    hquoted, Nat.psub_eq_sub (Nat.min_le_right (column - 1) quoted.length), Option.bind_eq_bind,
    Option.bind_some]
  split <;> rfl

/-! ## Spans on the boundaries of characters -/

/-- A place in the text is on the line that is quoted, behind as many characters as its column tells. -/
theorem underline_line (name : String) (stop : Nat) (htext : text.toList = head ++ (left ++ after))
    (hhead : EndsLine head) (hleft : '\n' ∉ left) :
    let u := (SourceFile.ofText name text).underline ⟨byteLength head + byteLength left, stop⟩
    u.line = 1 + head.count '\n' ∧ u.column = 1 + left.length ∧
      QuotedLine text (String.ofList head) u.quoted := by
  intro u
  obtain ⟨line, rest, rfl, hline, hrest⟩ := exists_firstLine after
  have hstart := lineColumn_byteLength htext hleft hhead
  rw [← List.append_assoc left] at htext
  have hwhole : '\n' ∉ left ++ line := by simp [hleft, hline]
  have hquoted := lineText?_of_split htext hhead hwhole hrest
  have hu : u = _ := underline_eq hstart rfl hquoted
  rw [hu]
  exact ⟨rfl, rfl, quotedLine_of_split htext hhead hwhole hrest⟩

/-- A part of a line has one mark below each of its characters. -/
theorem underline_within (name : String) (htext : text.toList = head ++ (left ++ (part ++ after)))
    (hhead : EndsLine head) (hleft : '\n' ∉ left) (hne : part ≠ []) (hpart : '\n' ∉ part)
    (hreturn : '\r' ∉ part) :
    let u := (SourceFile.ofText name text).underline
      ⟨byteLength head + byteLength left, byteLength head + byteLength left + byteLength part⟩
    (∃ right, u.quoted = String.ofList (left ++ part ++ right)) ∧ u.indent = left.length ∧
      u.width = part.length := by
  intro u
  obtain ⟨line, rest, rfl, hline, hrest⟩ := exists_firstLine after
  have hstart := lineColumn_byteLength htext hleft hhead
  have hchars : text.toList = head ++ ((left ++ part) ++ (line ++ rest)) := by
    rw [htext, List.append_assoc left]
  have hstop := lineColumn_byteLength hchars (by simp [hleft, hpart]) hhead
  have hwhole : '\n' ∉ left ++ part ++ line := by simp [hleft, hpart, hline]
  rw [← List.append_assoc (left ++ part)] at hchars
  have hquoted := lineText?_of_split hchars hhead hwhole hrest
  rw [byteLength_append, ← Nat.add_assoc] at hstop
  -- the part ends with a character that is no carriage return, and so is quoted as a whole
  obtain ⟨right, hright⟩ : ∃ right, dropReturns (left ++ part ++ line) = left ++ part ++ right := by
    obtain ⟨front, c, rfl⟩ := (List.eq_nil_or_concat part).resolve_left hne
    have hc : c ≠ '\r' := by
      rintro rfl
      simp at hreturn
    obtain ⟨right, hright⟩ := exists_dropReturns_append hc (left ++ front) line
    exact ⟨right, by simpa using hright⟩
  have hu : u = _ := underline_eq hstart hstop hquoted
  have hlen : 0 < part.length := List.length_pos_iff.mpr hne
  rw [hu, hright]
  simp only [String.length_ofList, List.length_append, if_pos]
  refine ⟨⟨right, rfl⟩, ?_, ?_⟩
  · omega
  · omega

/-- A part that goes on over a newline has its marks up to the end of the quoted line, or one mark
when it starts no earlier than there. -/
theorem underline_across (name : String) (htext : text.toList = head ++ (left ++ (part ++ after)))
    (hhead : EndsLine head) (hleft : '\n' ∉ left) (hpart : '\n' ∈ part) :
    let u := (SourceFile.ofText name text).underline
      ⟨byteLength head + byteLength left, byteLength head + byteLength left + byteLength part⟩
    u.indent = min left.length u.quoted.length ∧
      u.indent + u.width = max u.quoted.length (u.indent + 1) := by
  intro u
  have hstart := lineColumn_byteLength htext hleft hhead
  obtain ⟨-, quoted, hquoted⟩ := exists_lineText? hstart
  -- the end is on a later line
  obtain ⟨head', tail, hsplit, htail, hhead'⟩ := exists_lastLine (head ++ left ++ part)
  have hchars : text.toList = head' ++ (tail ++ after) := by
    rw [htext, ← List.append_assoc, ← List.append_assoc, hsplit, List.append_assoc]
  have hstop := lineColumn_byteLength hchars htail hhead'
  rw [← byteLength_append, ← hsplit, byteLength_append, byteLength_append] at hstop
  have hcount := congrArg (List.count '\n') hsplit
  simp only [List.count_append, List.count_eq_zero.mpr hleft, List.count_eq_zero.mpr htail] at hcount
  have hpos := List.count_pos_iff.mpr hpart
  have hu : u = _ := underline_eq hstart hstop hquoted
  rw [hu]
  dsimp only
  rw [if_neg (by omega)]
  omega

end SourceFile

namespace Renderer

open LineTable

/-- The two rows of a label, one above the other. -/
theorem quotedLabel_rows (r : Renderer) (file : SourceFile) (gutter : Nat) (l : Label) :
    let u := file.underline l.span
    let marks := replicateChar u.width (if l.isPrimary then '^' else '-')
    let remark := if l.message.isEmpty then "" else " " ++ l.message
    ∃ opening : String, r.quotedLabel file gutter l = opening ++ "\n" ++
      (padLeft gutter (toString u.line) ++ " | " ++ u.quoted) ++ "\n" ++
      (replicateChar gutter ' ' ++ " | " ++ replicateChar u.indent ' ' ++
        r.paint (labelColor l) (marks ++ remark)) ++ "\n" := by
  intro u marks remark
  have hremark : (if l.message.isEmpty then marks else marks ++ " " ++ l.message) =
      marks ++ if l.message.isEmpty then "" else " " ++ l.message := by
    split
    · rw [String.append_empty]
    · rw [String.append_assoc]
  refine ⟨replicateChar gutter ' ' ++ (if l.isPrimary then "-->" else ":::") ++ " " ++ file.name ++
    ":" ++ toString u.line ++ ":" ++ toString u.column ++ "-" ++ toString u.stopLine ++ ":" ++
    toString u.stopColumn ++ "\n" ++ replicateChar gutter ' ' ++ " |", ?_⟩
  have hself : ∀ s : String, toString s = s := fun _ => rfl
  have hbar : " |\n" = " |" ++ "\n" := rfl
  rw [← hremark]
  unfold quotedLabel
  simp only [hself, hbar, String.append_assoc]
  rfl

theorem length_replicateChar (n : Nat) (c : Char) : (replicateChar n c).length = n := by
  rw [replicateChar, String.length_ofList, List.length_replicate]

theorem length_padLeft {width : Nat} {s : String} (h : s.length ≤ width) :
    (padLeft width s).length = width := by
  rw [padLeft, String.length_append, length_replicateChar]
  omega

/-- The number of the line of a label has room in the margin. -/
theorem length_number_le {r : Renderer} {file : SourceFile} {labels : List Label} {l : Label}
    (hr : r.source = some file) (hl : l ∈ labels) :
    (toString (file.underline l.span).line).length ≤ r.gutter labels := by
  unfold gutter
  rw [hr]
  have hwidth := List.mem_map_of_mem
    (f := fun l : Label => (toString (file.lines.lineColumn l.span.start).1).length) hl
  exact Nat.le_succ_of_le (List.le_max?_getD_of_mem hwidth)

/-- A label is drawn as a line above a row of marks, both behind margins of one width; no subtraction
takes more than there is, every line asked for is there, and there is at least one mark.  For a span
on the boundaries of characters the line is that on which the span starts.  If the span is not empty
and has no newline and no carriage return, then the marks stand below its characters, one below each
and below nothing else.  If there is a newline in it, then the marks go from where it starts, or from
the end of the quoted line if that comes first, to the end of the quoted line, but one is drawn in
any case. -/
theorem quotedLabel_underlines (color : Bool) (name text : String) (labels : List Label) (l : Label)
    (hl : l ∈ labels) :
    let file := SourceFile.ofText name text
    let r : Renderer := { color, source := some file }
    let u := file.underline l.span
    let number := padLeft (r.gutter labels) (toString u.line)
    let margin := replicateChar (r.gutter labels) ' '
    let marks := replicateChar u.width (if l.isPrimary then '^' else '-')
    let remark := if l.message.isEmpty then "" else " " ++ l.message
    (∃ opening : String, r.quotedLabel file (r.gutter labels) l = opening ++ "\n" ++
      (number ++ " | " ++ u.quoted) ++ "\n" ++
      (margin ++ " | " ++ replicateChar u.indent ' ' ++ r.paint (labelColor l) (marks ++ remark)) ++
      "\n") ∧
    number.length = margin.length ∧
    file.checkedUnderline l.span = some u ∧ 1 ≤ u.width ∧
    ∀ before part after : String, text = before ++ part ++ after →
      l.span = ⟨before.utf8ByteSize, before.utf8ByteSize + part.utf8ByteSize⟩ →
      ∃ head left : String, before = head ++ left ∧ '\n' ∉ left.toList ∧
        QuotedLine text head u.quoted ∧
        u.line = 1 + head.toList.count '\n' ∧ u.column = 1 + left.length ∧
        (part ≠ "" → '\n' ∉ part.toList → '\r' ∉ part.toList →
          (∃ right : String, u.quoted = left ++ part ++ right) ∧
            u.indent = left.length ∧ u.width = part.length) ∧
        ('\n' ∈ part.toList → u.indent = min left.length u.quoted.length ∧
          u.indent + u.width = max u.quoted.length (u.indent + 1)) := by
  intro file r u number margin marks remark
  have hnumber : number.length = margin.length := by
    rw [length_padLeft (length_number_le rfl hl), length_replicateChar]
  have hwidth : 1 ≤ u.width := Nat.le_max_right _ 1
  refine ⟨quotedLabel_rows r file _ l, hnumber, SourceFile.checkedUnderline_eq name text l.span,
    hwidth, fun before part after htext hspan => ?_⟩
  have hsize : ∀ s : String, s.utf8ByteSize = byteLength s.toList := fun s =>
    (byteLength_toList s).symm
  obtain ⟨head, left, hbefore, hleft, hhead⟩ := exists_lastLine before.toList
  have hchars : text.toList = head ++ (left ++ (part.toList ++ after.toList)) := by
    rw [htext, String.toList_append, String.toList_append, hbefore]
    simp only [List.append_assoc]
  have hu : u = file.underline ⟨byteLength head + byteLength left,
      byteLength head + byteLength left + byteLength part.toList⟩ := by
    rw [← byteLength_append, ← hbefore, ← hsize, ← hsize, ← hspan]
  obtain ⟨hline, hcolumn, hquoted⟩ := SourceFile.underline_line name
    (byteLength head + byteLength left + byteLength part.toList) hchars hhead hleft
  refine ⟨String.ofList head, String.ofList left, ?_, ?_, ?_, ?_, ?_, fun hne hpart hreturn => ?_,
    fun hpart => ?_⟩
  · rw [← String.ofList_append, ← hbefore, String.ofList_toList]
  · rwa [String.toList_ofList]
  · rw [hu]
    exact hquoted
  · rw [hu, String.toList_ofList]
    exact hline
  · rw [hu, String.length_ofList]
    exact hcolumn
  · obtain ⟨⟨right, hright⟩, hindent, hmarks⟩ := SourceFile.underline_within name hchars hhead hleft
      (fun h => hne (String.toList_eq_nil_iff.mp h)) hpart hreturn
    rw [hu, String.length_ofList]
    refine ⟨⟨String.ofList right, ?_⟩, hindent, hmarks⟩
    rw [hright, String.ofList_append, String.ofList_append, String.ofList_toList]
  · rw [hu, String.length_ofList]
    exact SourceFile.underline_across name hchars hhead hleft hpart

/-- On a line with characters of two bytes that ends with a carriage return, a label inside the line
has its marks below two characters, and one that goes on over the end has one mark, below the last
character that is quoted. -/
theorem quotedLabel_underlines_greek :
    let text := "é = βγ\r\nz"
    let inside : Label := { span := ⟨5, 9⟩, message := "", isPrimary := true }
    let across : Label := { span := ⟨7, 12⟩, message := "", isPrimary := false }
    let labels := [inside, across]
    let file := SourceFile.ofText "greek.tn" text
    let u := file.underline inside.span
    let v := file.underline across.span
    (inside ∈ labels ∧ across ∈ labels ∧ text = "é = " ++ "βγ" ++ "\r\nz" ∧
      text = "é = β" ++ "γ\r\nz" ++ "" ∧ '\n' ∉ "βγ".toList ∧ '\r' ∉ "βγ".toList ∧
      '\n' ∈ "γ\r\nz".toList) ∧
    (∃ left right : String, u.quoted = left ++ "βγ" ++ right ∧ u.indent = left.length ∧
      u.width = 2) ∧
    v.indent + v.width = max v.quoted.length (v.indent + 1) ∧
    u.indent = 4 ∧ v.indent = 5 ∧ v.quoted = "é = βγ" := by
  intro text inside across labels file u v
  have hinside : inside ∈ labels := List.mem_cons_self
  have hacrossMem : across ∈ labels := List.mem_cons_of_mem _ List.mem_cons_self
  obtain ⟨-, -, -, -, hparts⟩ := quotedLabel_underlines false "greek.tn" text labels inside hinside
  obtain ⟨-, -, -, -, hparts'⟩ := quotedLabel_underlines false "greek.tn" text labels across hacrossMem
  obtain ⟨_, left, -, -, -, -, -, hwithin, -⟩ := hparts "é = " "βγ" "\r\nz" rfl rfl
  obtain ⟨_, _, -, -, -, -, -, -, hacross⟩ := hparts' "é = β" "γ\r\nz" "" rfl rfl
  obtain ⟨⟨right, hright⟩, hindent, hwidth⟩ := hwithin (by decide) (by decide) (by decide)
  refine ⟨⟨hinside, hacrossMem, rfl, rfl, by decide, by decide, by decide⟩,
    ⟨left, right, hright, hindent, hwidth⟩, (hacross (by decide)).2, ?_, ?_, ?_⟩
  · decide +kernel
  · decide +kernel
  · decide +kernel

end Renderer

end ConstraintTyping
