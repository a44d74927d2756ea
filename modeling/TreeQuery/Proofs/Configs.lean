import TreeQuery.Config

/-!
# Configurations are read as they were written

A configuration file is read in two stages: its text becomes a table of keys, and the table is
asked for four of them. Both are taken apart here, so that no statement about a command line
has to hold the file fixed.

The first stage is a round trip. A document is written line by line, in any order: comments, and
settings of a bare key to a string or to a truth value. What carries it is that every part is
read up to where it was written and no further. A bare character is none of those by which a
line is told to be a comment, a header or empty, a quote inside a string is only ever written
behind a backslash, and a line break is written nowhere but at the end of a line, because inside
a string it is escaped. The induction on the lines is over the table read so far, whose keys
differ: a line that sets one of them again is the only one that is refused.

The second stage is an equivalence for all tables, also those of documents that are written
differently (`Config.ofFields?_eq_some_iff`): a key of the four that is missing stands for its
default, one that has a value of another type makes the whole an error, and no other key counts.
-/

namespace TreeQuery

namespace Toml

/-! ## Strings -/

/-- One character of a written string: as it is, or escaped. -/
def writtenChar (c : Char) : List Char :=
  if c = '"' then ['\\', '"']
  else if c = '\\' then ['\\', '\\']
  else if isPlain c then [c]
  else ['\\', 'u', '0', '0', Nat.digitChar (c.toNat / 16), Nat.digitChar (c.toNat % 16)]

/-- A control character is read as its four digits; there are none beyond the first 128. -/
theorem codePoint?_written {c : Char} (h : isPlain c = false) :
    codePoint? ['0', '0', Nat.digitChar (c.toNat / 16), Nat.digitChar (c.toNat % 16)] = some c := by
  have hall : ∀ n < 128, codePoint?
      ['0', '0', Nat.digitChar (n / 16), Nat.digitChar (n % 16)] = some (Char.ofNat n) := by
    decide
  have hsmall : c.toNat < 128 := by
    simp [isPlain] at h
    omega
  rw [hall _ hsmall, Char.ofNat_toNat]

/-- A character is read as it was written, whether it is escaped or not. -/
theorem readBasic_writtenChar (c : Char) (s : List Char) :
    readBasic (writtenChar c ++ s) = cons c (readBasic s) := by
  unfold writtenChar
  split
  · next h => subst h; rfl
  split
  · next h => subst h; rfl
  split
  · next hquote hbackslash hplain =>
    rw [List.singleton_append, readBasic.eq_def]
    split <;> simp_all
  · next hplain =>
    show (codePoint? ['0', '0', _, _]).bind _ = _
    rw [codePoint?_written (Bool.not_eq_true _ ▸ hplain)]
    rfl

/-- Characters are read as they were written, up to the closing quote. -/
theorem readBasic_written (cs s : List Char) :
    readBasic (cs.flatMap writtenChar ++ '"' :: s) = some (cs, s) := by
  induction cs with
  | nil => rfl
  | cons c cs ih =>
    rw [List.flatMap_cons, List.append_assoc, readBasic_writtenChar, ih]
    rfl

/-- What is written for a character does not begin with a quote. -/
theorem exists_writtenChar_cons (c : Char) : ∃ d ds, writtenChar c = d :: ds ∧ d ≠ '"' := by
  unfold writtenChar
  split
  · exact ⟨_, _, rfl, by decide⟩
  split
  · exact ⟨_, _, rfl, by decide⟩
  split
  · next hquote _ _ => exact ⟨_, _, rfl, hquote⟩
  · exact ⟨_, _, rfl, by decide⟩

/-- A string between its quotes. -/
def writtenString (s : String) : List Char :=
  '"' :: s.toList.flatMap writtenChar ++ ['"']

/-- **A string is read as it was written**, up to its closing quote and no further. The quote
must not be followed by another one, which would make an empty string the opening of one over
several lines. -/
theorem readString_written (t : String) {c : Char} (s : List Char) (hc : c ≠ '"') :
    readString (writtenString t ++ c :: s) = some (t, c :: s) := by
  have hquoted : readQuoted (writtenString t ++ c :: s) = some (t, c :: s) := by
    show (readBasic ((t.toList.flatMap writtenChar ++ ['"']) ++ c :: s)).map _ = _
    rw [List.append_assoc, List.singleton_append, readBasic_written, Option.map_some]
    dsimp only
    rw [String.ofList_toList]
  rw [← hquoted]
  -- no third quote: behind an empty string stands `c`, and no other begins with a quote
  cases hcs : t.toList with
  | nil =>
    have hempty : writtenString t = ['"', '"'] := by rw [writtenString, hcs]; rfl
    rw [hempty]
    exact readString.eq_3 _ (by simp [hc]) (by simp)
  | cons d ds =>
    obtain ⟨e, es, he, hne⟩ := exists_writtenChar_cons d
    have hcons : writtenString t = '"' :: e :: (es ++ ds.flatMap writtenChar ++ ['"']) := by
      rw [writtenString, hcs, List.flatMap_cons, he]
      rfl
    rw [hcons]
    exact readString.eq_3 _ (by simp [hne]) (by simp)

/-! ## Lines -/

/-- A value that a key is set to: a text or a truth value. -/
inductive Scalar
  | text (value : String)
  | flag (value : Bool)
  deriving DecidableEq, Repr

namespace Scalar

/-- The value in a table. -/
def node : Scalar → Node
  | text value => .string value
  | flag value => .boolean value

/-- The characters of the value. -/
def written : Scalar → List Char
  | text value => writtenString value
  | flag value => (toString value).toList

end Scalar

/-- **A line of a written document**: a comment, or the setting of a key. -/
inductive Line
  | comment (text : String)
  | setting (key : String) (value : Scalar)
  deriving DecidableEq, Repr

/-- A key that needs no quotes. -/
def IsBareKey (key : String) : Prop :=
  key ≠ "" ∧ ∀ c ∈ key.toList, isBare c = true

instance decidableIsBareKey (key : String) : Decidable (IsBareKey key) :=
  have := List.decidableBAll (fun c => isBare c = true) key.toList
  inferInstanceAs (Decidable (_ ∧ _))

namespace Line

/-- What a line sets. -/
def fields : Line → Fields
  | comment _ => []
  | setting key value => [(key, value.node)]

/-- The characters of a line, its break included. -/
def written : Line → List Char
  | comment t => '#' :: t.toList ++ ['\n']
  | setting key value => key.toList ++ (" = ".toList ++ value.written ++ ['\n'])

/-- A line that can be written: its comment has no control characters, its key no others than
bare ones. -/
def Proper : Line → Prop
  | comment t => ∀ c ∈ t.toList, isPlain c = true
  | setting key _ => IsBareKey key

instance decidableProper : (l : Line) → Decidable l.Proper
  | comment t => List.decidableBAll (fun c => isPlain c = true) t.toList
  | setting key _ => decidableIsBareKey key

end Line

/-- A bare character is none of those that a line gives a meaning to. -/
theorem ne_of_isBare {c d : Char} (h : isBare c = true) (hd : isBare d = false) : c ≠ d := by
  rintro rfl
  rw [h] at hd
  cases hd

/-- A bare character is no blank. -/
theorem isBlank_of_isBare {c : Char} (h : isBare c = true) : isBlank c = false := by
  simp [isBlank, ne_of_isBare h (d := ' ') rfl, ne_of_isBare h (d := '\t') rfl]

/-- A bare key has a first character. -/
theorem IsBareKey.exists_cons {key : String} (h : IsBareKey key) :
    ∃ c cs, key.toList = c :: cs ∧ isBare c = true := by
  obtain ⟨hne, hbare⟩ := h
  cases hcs : key.toList with
  | nil => exact absurd (String.toList_eq_nil_iff.mp hcs) hne
  | cons c cs => exact ⟨c, cs, rfl, hbare c (by rw [hcs]; exact List.mem_cons_self)⟩

/-- No blank stands in front of a bare key. -/
theorem IsBareKey.skipBlanks_eq {key : String} (h : IsBareKey key) (s : List Char) :
    skipBlanks (key.toList ++ s) = key.toList ++ s := by
  obtain ⟨c, cs, hcs, hc⟩ := h.exists_cons
  rw [hcs, skipBlanks, List.cons_append,
    List.dropWhile_cons_of_neg (by simp [isBlank_of_isBare hc])]

/-- A bare key is read up to the first character that is not bare. -/
theorem readPartKey_written {key : String} (h : IsBareKey key) {d : Char} (s : List Char)
    (hd : isBare d = false) : readPartKey (key.toList ++ d :: s) = some (key, d :: s) := by
  have htake : (key.toList ++ d :: s).takeWhile isBare = key.toList := by
    rw [List.takeWhile_append_of_pos h.2, List.takeWhile_cons_of_neg (by simp [hd]),
      List.append_nil]
  obtain ⟨c, cs, hcs, hc⟩ := h.exists_cons
  unfold readPartKey
  split
  · next hquote =>
    rw [hcs] at hquote
    exact absurd (List.cons.inj hquote).1 (ne_of_isBare hc rfl)
  · next hquote =>
    rw [hcs] at hquote
    exact absurd (List.cons.inj hquote).1 (ne_of_isBare hc rfl)
  · dsimp only
    rw [htake, List.drop_left, if_neg (by simp [hcs]), String.ofList_toList]

/-- A bare key in front of an equality sign is read, and it leads through no tables. -/
theorem readKey_written {key : String} (h : IsBareKey key) (s : List Char) :
    readKey (key.toList ++ ' ' :: '=' :: s) = some (([], key), '=' :: s) := by
  show (readParts (78 + 1) _).bind _ = _
  rw [readParts, h.skipBlanks_eq, readPartKey_written h _ rfl]
  rfl

/-- A value is read off the front of a text, up to the break behind it. -/
theorem readValue_written (value : Scalar) (s : List Char) :
    readValue maxDepth (value.written ++ '\n' :: s) = some (value.node, '\n' :: s) := by
  cases value with
  | text t =>
    show (readString (writtenString t ++ '\n' :: s)).map _ = _
    rw [readString_written t s (by decide)]
    rfl
  | flag b => cases b <;> rfl

/-- The blank in front of a value is the only one. -/
theorem skipBlanks_written (value : Scalar) (s : List Char) :
    skipBlanks (' ' :: (value.written ++ s)) = value.written ++ s := by
  cases value with
  | text t => rfl
  | flag b => cases b <;> rfl

/-- A setting is read up to the end of its line. -/
theorem readSetting_written {key : String} (h : IsBareKey key) (value : Scalar) (s : List Char) :
    readSetting (readValue maxDepth) (key.toList ++ (" = ".toList ++ value.written ++ '\n' :: s))
      = some (([], key, value.node), '\n' :: s) := by
  have hkey : readKey (key.toList ++ (" = ".toList ++ value.written ++ '\n' :: s))
      = some (([], key), '=' :: ' ' :: (value.written ++ '\n' :: s)) := readKey_written h _
  rw [readSetting, hkey]
  show (readValue maxDepth (skipBlanks (' ' :: (value.written ++ '\n' :: s)))).bind _ = _
  rw [skipBlanks_written, readValue_written]
  rfl

/-- The keys of a table. -/
def Fields.keys (fields : Fields) : List String :=
  fields.map Prod.fst

/-- The keys are those that have a value. -/
theorem Fields.isSome_get? {fields : Fields} {key : String} :
    (fields.get? key).isSome = true ↔ key ∈ fields.keys := by
  rw [Fields.get?, List.lookup_isSome_iff, Fields.keys, List.mem_map]
  simp

/-- Keys that differ are followed by one more unless it is one of them. -/
theorem Fields.nodup_keys_append_singleton {fields : Fields} (h : fields.keys.Nodup)
    (key : String) (node : Node) :
    (fields ++ [(key, node)]).keys.Nodup ↔ (fields.get? key).isSome = false := by
  rw [← Bool.not_eq_true, Fields.isSome_get?, Fields.keys, List.map_append, List.nodup_append]
  simp only [Fields.keys] at h
  simp [h, Fields.keys]
  grind

/-- A setting at the top of a document goes behind the others, unless its key is there. -/
theorem Draft.set_eq {fields : Fields} (h : fields.keys.Nodup) (key : String) (node : Node) :
    Draft.set ⟨fields, []⟩ [] key node
      = if (fields ++ [(key, node)]).keys.Nodup then some ⟨fields ++ [(key, node)], []⟩
        else none := by
  have hroot : setKey [] key node .header fields
      = if (fields.get? key).isSome then none else some (.header, fields ++ [(key, node)]) := by
    simp [setKey, within]
  show (setKey [] key node .header fields).bind _ = _
  rw [hroot]
  simp only [Fields.nodup_keys_append_singleton h]
  cases (fields.get? key).isSome <;> rfl

/-- The line of a setting is read as that setting. -/
theorem readLine_setting {key : String} (h : IsBareKey key) (value : Scalar) {fields : Fields}
    (hfields : fields.keys.Nodup) (s : List Char) :
    readLine ⟨fields, []⟩ (key.toList ++ (" = ".toList ++ value.written ++ '\n' :: s))
      = if (fields ++ [(key, value.node)]).keys.Nodup
        then some (⟨fields ++ [(key, value.node)], []⟩, s) else none := by
  have hset := Draft.set_eq hfields key value.node
  have hsetting := readSetting_written h value s
  obtain ⟨c, cs, hcs, hc⟩ := h.exists_cons
  rw [hcs, List.cons_append] at hsetting ⊢
  rw [readLine.eq_6]
  · rw [hsetting]
    show (Draft.set ⟨fields, []⟩ [] key value.node).bind _ = _
    rw [hset]
    split <;> rfl
  -- a bare key begins neither a comment nor a break nor a header
  all_goals exact fun _ hfront => ne_of_isBare hc rfl (List.cons.inj hfront).1

/-- The line of a comment is passed over. -/
theorem readLine_comment {t : String} (h : ∀ c ∈ t.toList, isPlain c = true) (fields : Fields)
    (s : List Char) :
    readLine ⟨fields, []⟩ ('#' :: (t.toList ++ '\n' :: s)) = some (⟨fields, []⟩, s) := by
  have hskip : skipComment (skipBlanks ('#' :: (t.toList ++ '\n' :: s))) = '\n' :: s := by
    show (t.toList ++ '\n' :: s).dropWhile isPlain = _
    rw [List.dropWhile_append_of_pos h]
    rfl
  have hend : endLine ('#' :: (t.toList ++ '\n' :: s)) = some s := by
    rw [endLine, hskip]
    rfl
  rw [readLine, hend]
  rfl

/-- **A line is read as it was written**, and it is refused only for a key that is there. -/
theorem readLine_written {l : Line} (h : l.Proper) {fields : Fields} (hfields : fields.keys.Nodup)
    (s : List Char) :
    readLine ⟨fields, []⟩ (l.written ++ s)
      = if (fields ++ l.fields).keys.Nodup then some (⟨fields ++ l.fields, []⟩, s) else none := by
  cases l with
  | comment t =>
    have hline : (Line.comment t).written ++ s = '#' :: (t.toList ++ '\n' :: s) := by
      simp [Line.written]
    rw [hline, readLine_comment h, Line.fields, List.append_nil, if_pos hfields]
  | setting key value =>
    have hline : (Line.setting key value).written ++ s
        = key.toList ++ (" = ".toList ++ value.written ++ '\n' :: s) := by
      simp [Line.written]
    rw [hline, readLine_setting h value hfields]
    rfl

/-- A line has a first character, which is neither a blank nor a byte order mark. -/
theorem Line.Proper.exists_cons {l : Line} (h : l.Proper) :
    ∃ c cs, l.written = c :: cs ∧ isBlank c = false ∧ c ≠ '\ufeff' := by
  cases l with
  | comment t => exact ⟨'#', _, rfl, rfl, by decide⟩
  | setting key value =>
    obtain ⟨c, cs, hcs, hc⟩ := IsBareKey.exists_cons h
    refine ⟨c, cs ++ (" = ".toList ++ value.written ++ ['\n']), ?_, isBlank_of_isBare hc,
      ne_of_isBare hc rfl⟩
    rw [Line.written, hcs, List.cons_append]

/-! ## Documents -/

/-- The text of a document of these lines. -/
def written (lines : List Line) : String :=
  String.ofList (lines.flatMap Line.written)

/-- The table that these lines make, if no key is set twice. -/
def fieldsOf (lines : List Line) : Fields :=
  lines.flatMap Line.fields

/-- A line is read before those behind it. -/
theorem readAll_line {l : Line} (h : l.Proper) (bound : Nat) (d : Draft) (s : List Char) :
    readAll (bound + 1) d (l.written ++ s)
      = (readLine d (l.written ++ s)).bind fun (d, s) => readAll bound d s := by
  obtain ⟨c, cs, hcs, hc, -⟩ := h.exists_cons
  have hskip : skipBlanks (c :: (cs ++ s)) = c :: (cs ++ s) :=
    List.dropWhile_cons_of_neg (by simp [hc])
  rw [hcs, List.cons_append, readAll, hskip]
  rfl

/-- Lines are read to the end, behind a table whose keys differ. -/
theorem readAll_written {lines : List Line} (h : ∀ l ∈ lines, l.Proper) {fields : Fields}
    (hfields : fields.keys.Nodup) {bound : Nat} (hbound : lines.length < bound) :
    readAll bound ⟨fields, []⟩ (lines.flatMap Line.written)
      = if (fields ++ fieldsOf lines).keys.Nodup then some ⟨fields ++ fieldsOf lines, []⟩
        else none := by
  induction lines generalizing fields bound with
  | nil =>
    obtain ⟨bound, rfl⟩ := Nat.exists_eq_add_one.mpr (Nat.zero_lt_of_lt hbound)
    rw [show fieldsOf [] = [] from rfl, List.append_nil, if_pos hfields]
    rfl
  | cons l lines ih =>
    obtain ⟨hl, hlines⟩ := List.forall_mem_cons.mp h
    obtain ⟨bound, rfl⟩ := Nat.exists_eq_add_one.mpr (Nat.zero_lt_of_lt hbound)
    have hfieldsOf : fields ++ fieldsOf (l :: lines) = fields ++ l.fields ++ fieldsOf lines := by
      rw [fieldsOf, List.flatMap_cons, ← List.append_assoc]
      rfl
    rw [List.flatMap_cons, readAll_line hl, readLine_written hl hfields, hfieldsOf]
    by_cases hnodup : (fields ++ l.fields).keys.Nodup
    · rw [if_pos hnodup]
      exact ih hlines hnodup (Nat.lt_of_succ_lt_succ hbound)
    · have hmore : ¬ (fields ++ l.fields ++ fieldsOf lines).keys.Nodup := fun hall =>
        hnodup (hall.sublist ((List.sublist_append_left _ _).map Prod.fst))
      rw [if_neg hnodup, if_neg hmore]
      rfl

/-- There are no more lines than characters. -/
theorem length_le_length_written {lines : List Line} (h : ∀ l ∈ lines, l.Proper) :
    lines.length ≤ (lines.flatMap Line.written).length := by
  induction lines with
  | nil => exact Nat.zero_le _
  | cons l lines ih =>
    obtain ⟨hl, hlines⟩ := List.forall_mem_cons.mp h
    obtain ⟨c, cs, hcs, -⟩ := hl.exists_cons
    have hrest := ih hlines
    rw [List.flatMap_cons, List.length_append, hcs, List.length_cons, List.length_cons]
    omega

/-- **A document is read as it was written**, unless it sets a key twice. -/
theorem parse_written {lines : List Line} (h : ∀ l ∈ lines, l.Proper) :
    parse (written lines)
      = if (fieldsOf lines).keys.Nodup then some (fieldsOf lines) else none := by
  have hmark : parse (written lines) = (readAll ((lines.flatMap Line.written).length + 1) ⟨[], []⟩
      (lines.flatMap Line.written)).map Draft.fields := by
    rw [parse, written, String.toList_ofList]
    cases lines with
    | nil => rfl
    | cons l lines =>
      obtain ⟨c, cs, hcs, -, hc⟩ := (h l List.mem_cons_self).exists_cons
      rw [List.flatMap_cons, hcs, List.cons_append]
      split
      · next hfront => exact absurd (List.cons.inj hfront).1 hc
      · rfl
  have hempty : (Fields.keys []).Nodup := List.nodup_nil
  rw [hmark, readAll_written h hempty (Nat.lt_succ_of_le (length_le_length_written h)),
    List.nil_append]
  split <;> rfl

/-- A key that is set once has the value that it is set to. -/
theorem Fields.get?_eq_some_of_mem {fields : Fields} (h : fields.keys.Nodup) {key : String}
    {node : Node} (hmem : (key, node) ∈ fields) : fields.get? key = some node := by
  obtain ⟨front, behind, rfl⟩ := List.append_of_mem hmem
  rw [Fields.get?, List.lookup_eq_some_iff]
  refine ⟨front, behind, rfl, fun other hother => ?_⟩
  have hne : ∀ k ∈ front.map Prod.fst, k ≠ key := fun k hk =>
    (List.nodup_append.mp (by rwa [Fields.keys, List.map_append] at h)).2.2 k hk key
      List.mem_cons_self
  exact bne_iff_ne.mpr (hne _ (List.mem_map_of_mem hother)).symm

end Toml

namespace Config

/-! ## What a table says -/

/-- A truth value as a table gives it: a missing key stands for false. -/
def FlagAt (fields : Toml.Fields) (key : String) (b : Bool) : Prop :=
  fields.get? key = some (.boolean b) ∨ fields.get? key = none ∧ b = false

/-- **The configuration that a table describes.** Keys of other names do not count. -/
structure DescribedBy (fields : Toml.Fields) (c : Config) : Prop where
  /-- The query is the text at its key; without the key it asks for everything. -/
  query : fields.get? "query" = some (.string c.query) ∨
    fields.get? "query" = none ∧ c.query = "**/*"
  loadContent : FlagAt fields "load_content" c.loadContent
  filesFirst : FlagAt fields "files_first" c.filesFirst
  includeHidden : FlagAt fields "include_hidden" c.includeHidden

theorem textAt_eq_some_iff {fields : Toml.Fields} {key : String} {t : Option String} :
    textAt fields key = some t ↔ fields.get? key = t.map Toml.Node.string := by
  unfold textAt
  cases fields.get? key with
  | none => cases t <;> simp
  | some node => cases t <;> cases node <;> simp

theorem flagAt_eq_some_iff {fields : Toml.Fields} {key : String} {b : Bool} :
    flagAt fields key = some b ↔ FlagAt fields key b := by
  unfold flagAt FlagAt
  cases fields.get? key with
  | none => simp [eq_comm]
  | some node => cases node <;> simp

/-- **A table is read as the configuration that it describes**, whatever else is in it. -/
theorem ofFields?_eq_some_iff {fields : Toml.Fields} {c : Config} :
    ofFields? fields = some c ↔ DescribedBy fields c := by
  simp only [ofFields?, Option.bind_eq_bind, Option.bind_eq_some_iff, textAt_eq_some_iff,
    flagAt_eq_some_iff, Option.some.injEq]
  constructor
  · rintro ⟨t, ht, b, hb, f, hf, i, hi, rfl⟩
    refine ⟨?_, hb, hf, hi⟩
    cases t with
    | none => exact .inr ⟨ht, rfl⟩
    | some t => exact .inl ht
  · rintro ⟨hquery | ⟨hquery, hdefault⟩, hb, hf, hi⟩
    · exact ⟨some c.query, hquery, _, hb, _, hf, _, hi, rfl⟩
    · refine ⟨none, hquery, _, hb, _, hf, _, hi, ?_⟩
      rw [Option.getD_none, ← hdefault]

/-- A key gives a truth value unless it has a value of another type. -/
theorem exists_flagAt_iff {fields : Toml.Fields} {key : String} :
    (∃ b, FlagAt fields key b) ↔
      ∀ node, fields.get? key = some node → ∃ b, node = .boolean b := by
  constructor
  · rintro ⟨b, hb | ⟨hmissing, -⟩⟩ node hnode
    · exact ⟨b, Option.some.inj (hnode.symm.trans hb)⟩
    · rw [hmissing] at hnode
      cases hnode
  · intro h
    cases hnode : fields.get? key with
    | none => exact ⟨false, .inr ⟨hnode, rfl⟩⟩
    | some node =>
      obtain ⟨b, rfl⟩ := h node hnode
      exact ⟨b, .inl hnode⟩

/-- **Only values of a wrong type are errors**: the query has to be a text, and the other three
keys truth values. -/
theorem exists_describedBy_iff {fields : Toml.Fields} :
    (∃ c, DescribedBy fields c) ↔
      (∀ node, fields.get? "query" = some node → ∃ t, node = .string t) ∧
      ∀ key ∈ ["load_content", "files_first", "include_hidden"],
        ∀ node, fields.get? key = some node → ∃ b, node = .boolean b := by
  simp only [List.mem_cons, List.not_mem_nil, or_false, forall_eq_or_imp, forall_eq,
    ← exists_flagAt_iff]
  constructor
  · rintro ⟨c, hquery, hload, hfiles, hhidden⟩
    refine ⟨fun node hnode => ?_, ⟨_, hload⟩, ⟨_, hfiles⟩, ⟨_, hhidden⟩⟩
    obtain htext | ⟨hmissing, -⟩ := hquery
    · exact ⟨c.query, Option.some.inj (hnode.symm.trans htext)⟩
    · rw [hmissing] at hnode
      cases hnode
  · rintro ⟨hquery, ⟨load, hload⟩, ⟨files, hfiles⟩, ⟨hidden, hhidden⟩⟩
    cases hnode : fields.get? "query" with
    | none => exact ⟨⟨_, load, files, hidden⟩, .inr ⟨hnode, rfl⟩, hload, hfiles, hhidden⟩
    | some node =>
      obtain ⟨t, rfl⟩ := hquery node hnode
      exact ⟨⟨t, load, files, hidden⟩, .inl hnode, hload, hfiles, hhidden⟩

/-! ## What a file says -/

/-- A written document is read as what its table describes; it is refused if it sets a key twice
or describes nothing. -/
theorem ofBytes_written (p : Path) {lines : List Toml.Line} (h : ∀ l ∈ lines, l.Proper) :
    ofBytes p (Text.utf8 (Toml.written lines))
      = (if (Toml.fieldsOf lines).keys.Nodup then ofFields? (Toml.fieldsOf lines)
          else none).elim (.error (.parse p)) .ok := by
  unfold ofBytes
  rw [Text.ofUtf8?_utf8]
  dsimp only
  rw [Toml.parse_written h]
  by_cases hnodup : (Toml.fieldsOf lines).keys.Nodup
  · rw [if_pos hnodup, if_pos hnodup, Option.bind_some]
    cases ofFields? (Toml.fieldsOf lines) <;> rfl
  · rw [if_neg hnodup, if_neg hnodup, Option.bind_none]
    rfl

/-- **A written document is read as the configuration that its lines describe**, in whatever
order they stand. -/
theorem ofBytes_written_eq_ok_iff {p : Path} {lines : List Toml.Line} {c : Config}
    (h : ∀ l ∈ lines, l.Proper) :
    ofBytes p (Text.utf8 (Toml.written lines)) = .ok c ↔
      (Toml.fieldsOf lines).keys.Nodup ∧ DescribedBy (Toml.fieldsOf lines) c := by
  rw [ofBytes_written p h, ← ofFields?_eq_some_iff]
  by_cases hnodup : (Toml.fieldsOf lines).keys.Nodup
  · rw [if_pos hnodup]
    cases ofFields? (Toml.fieldsOf lines) <;> simp [hnodup]
  · simp [hnodup]

/-- The lines that a configuration is written in. -/
def lines (c : Config) : List Toml.Line :=
  [.setting "query" (.text c.query), .setting "load_content" (.flag c.loadContent),
    .setting "files_first" (.flag c.filesFirst),
    .setting "include_hidden" (.flag c.includeHidden)]

/-- **Every configuration can be written**: its own four lines, in any order and with comments
between them, are read as it. -/
theorem load_written {d : Disk} {p : Path} {c : Config} {lines : List Toml.Line}
    (h : ∀ l ∈ lines, l.Proper) (hlines : (Toml.fieldsOf lines).Perm (Toml.fieldsOf c.lines))
    (hread : d.read p = .ok (Text.utf8 (Toml.written lines))) :
    load d p = .ok c ∧ loadOrDefault d p = .ok c := by
  have hnodup : (Toml.fieldsOf lines).keys.Nodup := by
    refine (hlines.map Prod.fst).nodup_iff.mpr ?_
    show (["query", "load_content", "files_first", "include_hidden"] : List String).Nodup
    decide
  have hget : ∀ {key node}, (key, node) ∈ Toml.fieldsOf c.lines →
      (Toml.fieldsOf lines).get? key = some node := fun hmem =>
    Toml.Fields.get?_eq_some_of_mem hnodup (hlines.mem_iff.mpr hmem)
  have hdescribed : DescribedBy (Toml.fieldsOf lines) c := by
    refine ⟨.inl (hget ?_), .inl (hget ?_), .inl (hget ?_), .inl (hget ?_)⟩ <;>
      simp [Toml.fieldsOf, Config.lines, Toml.Line.fields, Toml.Scalar.node]
  have hbytes := (ofBytes_written_eq_ok_iff (p := p) h).mpr ⟨hnodup, hdescribed⟩
  simp only [load, loadOrDefault, hread]
  exact ⟨hbytes, hbytes⟩

end Config

end TreeQuery
