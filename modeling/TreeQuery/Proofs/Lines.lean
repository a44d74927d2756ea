import TreeQuery.Proofs.Documents
import TreeQuery.Command.Report

/-!
# Matches as lines that are read back

Who reads the objects that `select` prints takes the output apart at its line breaks and reads
each line as a document. That works if a line has no break of its own, and if the document then
says what the match says.

The first is true of every value, doubles included. Only a string could have a control
character in it, and there it is escaped; everything else is digits, brackets and a few words.
The second is what reading back comes to for one object. It stands around the contents, so
these have one level less than a document may have; its size and its time are counts of 64
bits, and a time before 1970 is not shown at all. Its keys are written in the order in which
objects keep them, whatever the order in which they are set.
-/

namespace TreeQuery

namespace Text

/-- **Characters of one line**: none is below U+0020, and so none is a line break. -/
def Unbroken (cs : List Char) : Prop :=
  ∀ c ∈ cs, 0x20 ≤ c.toNat

instance : DecidablePred Unbroken :=
  List.decidableBAll fun c : Char => 0x20 ≤ c.toNat

theorem unbroken_append_iff {cs ds : List Char} :
    Unbroken (cs ++ ds) ↔ Unbroken cs ∧ Unbroken ds :=
  List.forall_mem_append

theorem unbroken_cons_iff {c : Char} {cs : List Char} :
    Unbroken (c :: cs) ↔ 0x20 ≤ c.toNat ∧ Unbroken cs :=
  List.forall_mem_cons

theorem unbroken_toList_append_iff {s t : String} :
    Unbroken (s ++ t).toList ↔ Unbroken s.toList ∧ Unbroken t.toList := by
  rw [String.toList_append, unbroken_append_iff]

/-- Commas between texts do not break a line. -/
theorem unbroken_intercalate {ss : List String} (h : ∀ s ∈ ss, Unbroken s.toList) :
    Unbroken (String.intercalate "," ss).toList := by
  induction ss with
  | nil => exact List.forall_mem_nil _
  | cons s ss ih =>
    obtain ⟨hs, hss⟩ := List.forall_mem_cons.mp h
    cases ss with
    | nil => rwa [String.intercalate_singleton]
    | cons t ss =>
      rw [String.intercalate_cons_cons, unbroken_toList_append_iff, unbroken_toList_append_iff]
      exact ⟨⟨hs, by decide⟩, ih hss⟩

end Text

namespace Json

open Text

/-- Digits do not break a line. -/
theorem unbroken_toDigits (n : Nat) : Unbroken (Nat.toDigits 10 n) := by
  intro c hc
  have hdigit := Nat.isDigit_of_mem_toDigits (by decide) (by decide) hc
  exact Nat.le_trans (by decide) (toNat_of_isDigit hdigit).1

/-- Whatever a character is written as is of one line. -/
theorem unbroken_escapedChar (c : Char) : Unbroken (escapedChar c) := by
  have hhex (n : Nat) : 0x20 ≤ (hexDigit n).toNat := by
    have hall : ∀ d < 16, 0x20 ≤ (Nat.digitChar d).toNat := by decide
    exact hall (n % 16) (Nat.mod_lt n (by decide))
  unfold escapedChar
  iterate 7 (split; next => decide)
  split
  · simp only [unbroken_cons_iff]
    exact ⟨by decide, by decide, by decide, by decide, hhex _, hhex _, List.forall_mem_nil _⟩
  · next hvisible => exact List.forall_mem_singleton.mpr (Nat.not_lt.mp hvisible)

/-- A string is written on one line, whatever is in it. -/
theorem unbroken_stringText (s : String) : Unbroken (stringText s).toList := by
  rw [stringText, String.toList_ofList, List.cons_append, unbroken_cons_iff,
    unbroken_append_iff]
  refine ⟨by decide, ?_, by decide⟩
  intro c hc
  obtain ⟨d, _, hcd⟩ := List.mem_flatMap.mp hc
  exact unbroken_escapedChar d c hcd

/-- Digits with a point among them. -/
theorem unbroken_pointed {digits : List Char} (h : Unbroken digits) (whole : Nat) :
    Unbroken (pointed digits whole) := by
  have hfilled (n : Nat) : Unbroken (digits ++ List.replicate n '0') :=
    unbroken_append_iff.mpr ⟨h, fun c hc => by rw [List.eq_of_mem_replicate hc]; decide⟩
  rw [pointed, unbroken_append_iff, unbroken_cons_iff]
  exact ⟨fun c hc => hfilled _ c (List.mem_of_mem_take hc), by decide,
    fun c hc => hfilled _ c (List.mem_of_mem_drop hc)⟩

/-- A decimal is written on one line. -/
theorem unbroken_decimalText (d : Decimal) : Unbroken (decimalText d) := by
  have hdigits : Unbroken d.written := unbroken_toDigits d.digits
  unfold decimalText
  dsimp only
  split
  · exact unbroken_pointed hdigits _
  split
  · rw [List.cons_append, List.cons_append, unbroken_cons_iff, unbroken_cons_iff,
      unbroken_append_iff]
    exact ⟨by decide, by decide,
      fun c hc => by rw [List.eq_of_mem_replicate hc]; decide, hdigits⟩
  · rw [unbroken_append_iff, unbroken_cons_iff, unbroken_cons_iff]
    refine ⟨?_, by decide, by split <;> decide, unbroken_toDigits _⟩
    split
    · next heq =>
      rw [heq] at hdigits
      simp only [unbroken_cons_iff] at hdigits ⊢
      exact ⟨hdigits.1, by decide, hdigits.2⟩
    · exact hdigits

/-- A number is written on one line. -/
theorem unbroken_text (n : Number) : Unbroken n.text.toList := by
  cases n with
  | integer n =>
    have hdigits (k : Nat) : Unbroken k.repr.toList := by
      rw [Nat.repr_eq_ofList_toDigits, String.toList_ofList]
      exact unbroken_toDigits k
    rw [Number.text, Int.toString_eq_repr, Int.repr_eq_if]
    split
    · exact hdigits n.toNat
    · rw [unbroken_toList_append_iff]
      exact ⟨by decide, hdigits _⟩
  | double negative x =>
    rw [Number.text, String.toList_ofList, unbroken_append_iff]
    exact ⟨by split <;> decide, unbroken_decimalText x.shortest⟩

/-- **Induction on values**: what is inside an array or an object is met as its elements. -/
@[elab_as_elim]
theorem Value.inside_induction {motive : Value → Prop} (null : motive .null)
    (bool : ∀ b, motive (.bool b)) (number : ∀ n, motive (.number n))
    (string : ∀ s, motive (.string s))
    (array : ∀ vs : List Value, (∀ v ∈ vs, motive v) → motive (.array vs))
    (object : ∀ ms : List (String × Value), (∀ m ∈ ms, motive m.2) → motive (.object ms)) :
    ∀ v, motive v
  | .null => null
  | .bool b => bool b
  | .number n => number n
  | .string s => string s
  | .array vs => array vs fun v _ => inside_induction null bool number string array object v
  | .object ms => object ms fun m _ => inside_induction null bool number string array object m.2
decreasing_by
  · have := List.sizeOf_lt_of_mem ‹v ∈ vs›
    rw [Value.array.sizeOf_spec]
    omega
  · have := List.sizeOf_lt_of_mem ‹m ∈ ms›
    obtain ⟨k, v⟩ := m
    rw [Prod.mk.sizeOf_spec] at this
    show sizeOf v < _
    rw [Value.object.sizeOf_spec]
    omega

/-- **A value is written on one line**, whatever is in it. -/
theorem unbroken_compact (v : Value) : Unbroken v.compact.toList := by
  induction v using Value.inside_induction with
  | null => rw [Value.compact]; decide
  | bool b => cases b <;> (rw [Value.compact]; decide)
  | number n => rw [Value.compact]; exact unbroken_text n
  | string s => rw [Value.compact]; exact unbroken_stringText s
  | array vs ih =>
    rw [Value.compact, compactItems_eq, unbroken_toList_append_iff, unbroken_toList_append_iff]
    exact ⟨⟨by decide, unbroken_intercalate (List.forall_mem_map.mpr ih)⟩, by decide⟩
  | object ms ih =>
    have hmembers : ∀ m ∈ ms, Unbroken (memberText m).toList := by
      intro m hm
      rw [memberText, unbroken_toList_append_iff, unbroken_toList_append_iff]
      exact ⟨⟨unbroken_stringText m.1, by decide⟩, ih m hm⟩
    rw [Value.compact, compactMembers_eq, unbroken_toList_append_iff, unbroken_toList_append_iff]
    exact ⟨⟨by decide, unbroken_intercalate (List.forall_mem_map.mpr hmembers)⟩, by decide⟩

end Json

namespace Match

open Json

/-- The members of the object stand in the order of their keys. -/
theorem object_eq (m : Match) :
    m.object = .object [
      ("content", m.content.getD .null),
      ("modified", m.shownTime),
      ("path", .string m.path.text),
      ("size", .number (.integer m.metadata.size))] := by
  simp only [object, Value.ofMembers, List.foldl_cons, List.foldl_nil, setMember,
    String.reduceLT, String.reduceEq, if_true, if_false]

/-- The time that is shown can be read again. -/
theorem plain_shownTime {m : Match} (time : ∀ t ∈ m.metadata.modified, t < twoTo 64)
    (depth : Nat) : m.shownTime.Plain depth := by
  unfold shownTime
  split
  · next t ht =>
    split
    · exact .integer (by omega) (time t ht)
    · exact .null
  · exact .null

/-- The object of a match can be read again, if its size and time are counts of 64 bits and if
its contents leave one level for the object around them. -/
theorem plain_object {m : Match} (size : m.metadata.size < twoTo 64)
    (time : ∀ t ∈ m.metadata.modified, t < twoTo 64) (content : ∀ v ∈ m.content, v.Plain 126) :
    m.object.Plain maxDepth := by
  have hcontent : (m.content.getD .null).Plain 126 := by
    cases hm : m.content with
    | none => exact .null
    | some v => exact content v hm
  rw [object_eq]
  have hkeys : ["content", "modified", "path", "size"].Pairwise (· < ·) := by decide
  refine .object (List.pairwise_map.mp hkeys) ?_
  simp only [List.forall_mem_cons]
  exact ⟨hcontent, plain_shownTime time 126, .string _, .integer (by omega) (by omega),
    List.forall_mem_nil _⟩

/-- **The object of a match is one line, and reading it gives the match.** Nothing in the line
is below U+0020. Read as a document it is an object with four keys, in which the path, the size
and the contents are those of the match – `null` if they were not asked for – and the time is
that of the match in whole seconds since 1970, or `null` if it is not known or before that. -/
theorem line_reads_back (m : Match) (size : m.metadata.size < twoTo 64)
    (time : ∀ t ∈ m.metadata.modified, t < twoTo 64) (content : ∀ v ∈ m.content, v.Plain 126) :
    (∀ c ∈ (m.line true).toList, 0x20 ≤ c.toNat) ∧
    ∃ modified,
      parse (Text.utf8 (m.line true)) = .ok (.object [
        ("content", m.content.getD .null),
        ("modified", modified),
        ("path", .string m.path.text),
        ("size", .number (.integer m.metadata.size))]) ∧
      (∀ t, m.metadata.modified = some t → 0 ≤ t → modified = .number (.integer t)) ∧
      ((∀ t, m.metadata.modified = some t → t < 0) → modified = .null) := by
  have hline : m.line true = m.object.compact := if_pos rfl
  rw [hline]
  refine ⟨unbroken_compact m.object, m.shownTime, ?_, ?_, ?_⟩
  · rw [parse_compact (plain_object size time content), object_eq]
  · intro t ht hsign
    simp only [shownTime, ht, if_pos hsign]
  · intro hbefore
    unfold shownTime
    split
    · next t ht => rw [if_neg (by have := hbefore t ht; omega)]
    · rfl

/-- A file whose name has a line break, a quote, a backslash and a control character, of the
largest size, last changed before 1970, with contents that have all of this inside. -/
def awkward : Match where
  path := ⟨"a\n\"\\\x01/😀.json"⟩
  metadata := ⟨false, true, 18446744073709551615, some (-1)⟩
  content := some (.array [
    .object [("", .number (.integer (-9223372036854775808))), ("\t", .string "\r\x1f")],
    .array []])

/-- The line of such a file is read back as well. -/
theorem line_reads_back_awkward :
    (∀ c ∈ (awkward.line true).toList, 0x20 ≤ c.toNat) ∧
    parse (Text.utf8 (awkward.line true)) = .ok (.object [
      ("content", .array [
        .object [("", .number (.integer (-9223372036854775808))), ("\t", .string "\r\x1f")],
        .array []]),
      ("modified", .null),
      ("path", .string "a\n\"\\\x01/😀.json"),
      ("size", .number (.integer 18446744073709551615))]) := by
  have hsize : awkward.metadata.size < twoTo 64 := by decide
  have htime : ∀ t ∈ awkward.metadata.modified, t < twoTo 64 := by
    rintro t ⟨⟩
    decide
  have hcontent : ∀ v ∈ awkward.content, v.Plain 126 := by
    rintro v ⟨⟩
    refine .array ?_
    simp only [List.forall_mem_cons]
    have hkeys : ["", "\t"].Pairwise (· < ·) := by decide
    refine ⟨.object (List.pairwise_map.mp hkeys) ?_, .array (List.forall_mem_nil _),
      List.forall_mem_nil _⟩
    simp only [List.forall_mem_cons]
    exact ⟨.integer (by decide) (by decide), .string _, List.forall_mem_nil _⟩
  obtain ⟨hline, modified, hparse, -, hbefore⟩ :=
    line_reads_back awkward hsize htime hcontent
  have hnull : modified = .null := hbefore (by rintro t ⟨⟩; decide)
  rw [hnull] at hparse
  exact ⟨hline, hparse⟩

end Match

end TreeQuery
