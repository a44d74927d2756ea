import TreeQuery.Proofs.Numerals
import TreeQuery.Json.Reader

/-!
# Documents are read as they were written

A value is read in the middle of a document, so more has to be said of it than that it comes
back: its first byte is its own, neither a blank that would be skipped nor a bracket that would
close what it stands in, and what stands behind it is left for the next (`ReadsBack`). In this
form the statement is its own induction hypothesis. An array is read as it was written if its
items are, and an object if its members are, so that induction on the value is all there is to
it; the levels at which the values of a `Plain` one stand are the levels that the reader is
allowed.

What is inside an array and what is inside an object is read by two loops of one shape, and
both are shown to be `readSeries`. That an object comes back with its members in their places
needs one thing more, their order: each member that is read is set behind those before it.
-/

namespace TreeQuery

namespace Json

/-! ## Reading back -/

/-- **A reader gives back a value** from the bytes it was written as. -/
structure ReadsBack {α : Type} (read : Reader α) (bytes : Bytes) (a : α) : Prop where
  /-- The first byte is neither a blank nor a closing bracket. -/
  opens : ∃ b more, bytes = b :: more ∧ isBlank b = false ∧ b ≠ 93 ∧ b ≠ 125
  /-- The value is read, and what stands behind it is left. -/
  reads : ∀ rest, Ends rest → read (bytes ++ rest) = .ok (a, rest)

/-- What does not begin with a blank is left by skipping blanks. -/
theorem skipBlanks_cons {b : UInt8} (h : isBlank b = false) (rest : Bytes) :
    skipBlanks (b :: rest) = b :: rest :=
  List.dropWhile_cons_of_neg (by rw [h]; exact Bool.false_ne_true)

/-! ## Series -/

section Series

variable {α : Type}

/-- One round of reading a series: the closing bracket, or an item and then `more`. -/
def seriesRound (close : UInt8) (unclosed noComma : Cause) (item : Reader α)
    (more : Reader (List α)) (first : Bool) : Reader (List α) := fun s =>
  match skipBlanks s with
  | [] => .error (.atNext unclosed [])
  | b :: rest =>
    let go (s : Bytes) : Except Failure (List α × Bytes) := do
      let (a, s) ← item s
      let (as, s) ← more s
      .ok (a :: as, s)
    if b = close then .ok ([], rest)
    else if first then go (b :: rest)
    else if b = 44 then
      match skipBlanks rest with
      | [] => .error (.atNext .endInValue [])
      | c :: r => if c = close then .error (.atNext .trailingComma (c :: r)) else go (c :: r)
    else .error (.atNext noComma (b :: rest))

/-- **Items with commas between them**, up to a closing bracket. What is inside an array and
what is inside an object differ in the bracket, in how an item is read, and in what a failure
is called. -/
def readSeries (close : UInt8) (unclosed noComma : Cause) (item : Reader α) :
    (bound : Nat) → (first : Bool) → Reader (List α)
  | 0, _ => fun s => .error (.atNext unclosed s)
  | bound + 1, first =>
    seriesRound close unclosed noComma item (readSeries close unclosed noComma item bound false)
      first

/-- What is inside an array is read as a series. -/
theorem readItems_eq (item : Reader Value) (bound : Nat) (first : Bool) :
    readItems item bound first = readSeries 93 .endInList .noCommaInList item bound first := by
  induction bound generalizing first with
  | zero => rfl
  | succ bound ih =>
    show seriesRound 93 .endInList .noCommaInList item (readItems item bound false) first = _
    rw [ih false, readSeries]

/-- What is inside an object is read as a series of members. -/
theorem readMembers_eq (item : Reader Value) (bound : Nat) (first : Bool) :
    readMembers item bound first
      = readSeries 125 .endInObject .noCommaInObject (readMember item) bound first := by
  induction bound generalizing first with
  | zero => rfl
  | succ bound ih =>
    show seriesRound 125 .endInObject .noCommaInObject (readMember item)
      (readMembers item bound false) first = _
    rw [ih false, readSeries]

/-- The bytes of items with commas between them. -/
def seriesBytes (bytes : α → Bytes) : List α → Bytes
  | [] => []
  | a :: as => bytes a ++ as.flatMap fun a => 44 :: bytes a

/-- A series has at least as many bytes as items, the bracket behind it counted. -/
theorem length_le_series (bytes : α → Bytes) (as : List α) (b : UInt8) (rest : Bytes) :
    as.length ≤ (seriesBytes bytes as ++ b :: rest).length := by
  have hmore : ∀ as : List α, as.length ≤ (as.flatMap fun a => 44 :: bytes a).length := by
    intro as
    induction as with
    | nil => exact Nat.le_refl 0
    | cons a as ih =>
      rw [List.flatMap_cons, List.length_append, List.length_cons, List.length_cons]
      omega
  cases as with
  | nil => exact Nat.zero_le _
  | cons a as =>
    have := hmore as
    simp only [seriesBytes, List.length_append, List.length_cons]
    omega

variable {close : UInt8} {unclosed noComma : Cause} {item : Reader α} {bytes : α → Bytes}

/-- Behind an item there is a comma or a closing bracket. -/
theorem ends_more (bracket : close = 93 ∨ close = 125) (bytes : α → Bytes) (as : List α)
    (rest : Bytes) : Ends ((as.flatMap fun a => 44 :: bytes a) ++ close :: rest) := by
  cases as with
  | nil => exact fun b hb => .inr (by cases hb; exact bracket)
  | cons a as => exact fun b hb => .inl (by cases hb; rfl)

/-- One more item is read, whether it is the first or stands behind a comma. -/
theorem readSeries_item (bracket : close = 93 ∨ close = 125) {bs s rest : Bytes} {a : α}
    {as : List α} {bound : Nat} (back : ReadsBack item bs a) (ends : Ends s)
    (more : readSeries close unclosed noComma item bound false s = .ok (as, rest)) :
    readSeries close unclosed noComma item (bound + 1) true (bs ++ s) = .ok (a :: as, rest) ∧
    readSeries close unclosed noComma item (bound + 1) false (44 :: (bs ++ s))
      = .ok (a :: as, rest) := by
  have reads := back.reads s ends
  obtain ⟨b, bs, rfl, hblank, hlist, hobject⟩ := back.opens
  have hclose : b ≠ close := by rcases bracket with rfl | rfl <;> assumption
  have hcomma : (44 : UInt8) ≠ close := by rcases bracket with rfl | rfl <;> decide
  rw [List.cons_append] at reads ⊢
  constructor
  · rw [readSeries, seriesRound, skipBlanks_cons hblank]
    simp only [if_neg hclose, if_true, reads, more, bind, Except.bind]
  · rw [readSeries, seriesRound, skipBlanks_cons (by decide)]
    simp only [if_neg hcomma, Bool.false_eq_true, if_false, if_true, skipBlanks_cons hblank,
      if_neg hclose, reads, more, bind, Except.bind]

/-- Nothing more is read behind the closing bracket. -/
theorem readSeries_close (bracket : close = 93 ∨ close = 125) (bound : Nat) (first : Bool)
    (rest : Bytes) :
    readSeries close unclosed noComma item (bound + 1) first (close :: rest) = .ok ([], rest) := by
  rw [readSeries, seriesRound, skipBlanks_cons (by rcases bracket with rfl | rfl <;> decide)]
  exact if_pos rfl

/-- The items behind the first are read as they were written. -/
theorem readSeries_more (bracket : close = 93 ∨ close = 125) {as : List α}
    (items : ∀ a ∈ as, ReadsBack item (bytes a) a) {bound : Nat}
    (enough : as.length < bound) (rest : Bytes) :
    readSeries close unclosed noComma item bound false
      ((as.flatMap fun a => 44 :: bytes a) ++ close :: rest) = .ok (as, rest) := by
  obtain ⟨bound, rfl⟩ := Nat.exists_eq_add_one_of_ne_zero (Nat.ne_zero_of_lt enough)
  induction as generalizing bound with
  | nil => exact readSeries_close bracket bound false rest
  | cons a as ih =>
    obtain ⟨hitem, hitems⟩ := List.forall_mem_cons.mp items
    rw [List.length_cons] at enough
    obtain ⟨bound, rfl⟩ := Nat.exists_eq_add_one_of_ne_zero (n := bound) (by omega)
    rw [List.flatMap_cons, List.cons_append, List.cons_append, List.append_assoc]
    exact (readSeries_item bracket hitem (ends_more bracket bytes as rest)
      (ih hitems bound (by omega))).2

/-- **A series is read as it was written**, if each of its items is. -/
theorem readSeries_series (bracket : close = 93 ∨ close = 125) {as : List α}
    (items : ∀ a ∈ as, ReadsBack item (bytes a) a) (rest : Bytes) :
    readSeries close unclosed noComma item
      ((seriesBytes bytes as ++ close :: rest).length + 1) true
      (seriesBytes bytes as ++ close :: rest) = .ok (as, rest) := by
  have henough := length_le_series bytes as close rest
  generalize (seriesBytes bytes as ++ close :: rest).length = bound at henough
  cases as with
  | nil => exact readSeries_close bracket bound true rest
  | cons a as =>
    obtain ⟨hitem, hitems⟩ := List.forall_mem_cons.mp items
    rw [seriesBytes, List.append_assoc]
    exact (readSeries_item bracket hitem (ends_more bracket bytes as rest)
      (readSeries_more bracket hitems henough rest)).1

end Series

/-! ## Objects -/

/-- A member behind all others is set at the end. -/
theorem setMember_of_above {key : String} {value : Value} {ms : List (String × Value)}
    (h : ∀ m ∈ ms, m.1 < key) : setMember key value ms = ms ++ [(key, value)] := by
  induction ms with
  | nil => rfl
  | cons m ms ih =>
    obtain ⟨hm, hms⟩ := List.forall_mem_cons.mp h
    have hne : key ≠ m.1 := fun heq => String.lt_irrefl key (heq ▸ hm)
    rw [setMember, if_neg (String.lt_asymm hm), if_neg hne, ih hms, List.cons_append]

/-- Members in increasing order of their keys stay as they are. -/
theorem ofMembers_of_increasing {ms : List (String × Value)}
    (increasing : ms.Pairwise fun m n => m.1 < n.1) : Value.ofMembers ms = .object ms := by
  have hset : ∀ before : List (String × Value),
      (before ++ ms).Pairwise (fun m n => m.1 < n.1) →
      ms.foldl (fun acc m => setMember m.1 m.2 acc) before = before ++ ms := by
    clear increasing
    induction ms with
    | nil => intro before _; rw [List.append_nil]; rfl
    | cons m ms ih =>
      intro before h
      have habove : ∀ n ∈ before, n.1 < m.1 := fun n hn =>
        (List.pairwise_append.mp h).2.2 n hn m List.mem_cons_self
      rw [List.append_cons] at h ⊢
      rw [List.foldl_cons, setMember_of_above habove]
      exact ih _ h
  exact congrArg Value.object (hset [] increasing)

/-! ## Values -/

/-- **The values that can be written and read again**: their numbers are integers of 64 bits,
with or without a sign, their arrays and objects nest at most `depth` deep, and the members of
an object are in increasing order of their keys. -/
inductive Value.Plain : (depth : Nat) → Value → Prop
  | null {depth : Nat} : Plain depth .null
  | bool {depth : Nat} (b : Bool) : Plain depth (.bool b)
  | integer {depth : Nat} {n : Int} (lower : -(twoTo 63 : Int) ≤ n) (upper : n < twoTo 64) :
      Plain depth (.number (.integer n))
  | string {depth : Nat} (s : String) : Plain depth (.string s)
  | array {depth : Nat} {vs : List Value} (items : ∀ v ∈ vs, Plain depth v) :
      Plain (depth + 1) (.array vs)
  | object {depth : Nat} {ms : List (String × Value)}
      (increasing : ms.Pairwise fun m n => m.1 < n.1) (members : ∀ m ∈ ms, Plain depth m.2) :
      Plain (depth + 1) (.object ms)

/-- The items of an array are written with commas between. -/
theorem compactItems_eq (vs : List Value) :
    compactItems vs = String.intercalate "," (vs.map Value.compact) := by
  induction vs with
  | nil => rw [compactItems, List.map_nil, String.intercalate_nil]
  | cons v vs ih =>
    cases vs with
    | nil => rw [compactItems, List.map_singleton, String.intercalate_singleton]
    | cons w vs =>
      rw [compactItems, ih]
      · simp only [List.map_cons, String.intercalate_cons_cons]
      · exact List.cons_ne_nil w vs

/-- A member of an object as it is written. -/
def memberText (m : String × Value) : String :=
  stringText m.1 ++ ":" ++ m.2.compact

/-- The members of an object are written with commas between. -/
theorem compactMembers_eq (ms : List (String × Value)) :
    compactMembers ms = String.intercalate "," (ms.map memberText) := by
  induction ms with
  | nil => rw [compactMembers, List.map_nil, String.intercalate_nil]
  | cons m ms ih =>
    cases ms with
    | nil => rw [compactMembers, List.map_singleton, String.intercalate_singleton, memberText]
    | cons n ms =>
      rw [compactMembers, ih]
      · simp only [List.map_cons, String.intercalate_cons_cons, memberText]
      · exact List.cons_ne_nil n ms

/-- The bytes of texts with commas between. -/
theorem utf8_intercalate {α : Type} (text : α → String) (as : List α) :
    Text.utf8 (String.intercalate "," (as.map text))
      = seriesBytes (fun a => Text.utf8 (text a)) as := by
  induction as with
  | nil => rfl
  | cons a as ih =>
    cases as with
    | nil => simp [seriesBytes]
    | cons b as =>
      rw [List.map_cons] at ih
      rw [List.map_cons, List.map_cons, String.intercalate_cons_cons, Text.utf8_append,
        Text.utf8_append, ih, List.append_assoc]
      rfl

/-- Digits are read as they were written. -/
theorem readsBack_digits {n : Nat} (fits : n ≤ maxSignificand) (item : Option (Reader Value)) :
    ReadsBack (readValueWith item) (digitBytes n) (.number (.integer n)) := by
  obtain ⟨b, more, d, hbytes, hdigit⟩ := exists_digitBytes_cons n
  have hne (c : UInt8) (hc : digit? c = none) : b ≠ c := by
    rintro rfl
    rw [hc] at hdigit
    cases hdigit
  have hblank : isBlank b = false := by
    simp [isBlank, hne 32 (by decide), hne 9 (by decide), hne 10 (by decide),
      hne 13 (by decide)]
  refine ⟨⟨b, more, hbytes, hblank, hne 93 (by decide), hne 125 (by decide)⟩, ?_⟩
  intro rest ends
  have hread : readNumber false (b :: (more ++ rest)) = .ok (.integer n, rest) := by
    rw [← List.cons_append, ← hbytes]
    exact readNumber_digits fits ends false
  rw [hbytes, List.cons_append, readValueWith, skipBlanks_cons hblank]
  simp only [if_neg (hne 110 (by decide)), if_neg (hne 116 (by decide)),
    if_neg (hne 102 (by decide)), if_neg (hne 45 (by decide)), hdigit, Option.isSome_some,
    if_true, hread, bind, Except.bind]

/-- Digits behind a minus sign are read as they were written. -/
theorem readsBack_minus {n : Nat} (positive : n ≠ 0) (least : n ≤ twoTo 63)
    (item : Option (Reader Value)) :
    ReadsBack (readValueWith item) (45 :: digitBytes n) (.number (.integer (-n))) := by
  have hfits : n ≤ maxSignificand := Nat.le_trans least (by decide)
  refine ⟨⟨45, _, rfl, by decide⟩, ?_⟩
  intro rest ends
  rw [List.cons_append, readValueWith, skipBlanks_cons (by decide)]
  show (readNumber true (digitBytes n ++ rest)).bind
    (fun r => .ok (Value.number r.1, r.2)) = _
  rw [readNumber_digits hfits ends, integerOf_negative positive least]
  rfl

/-- An integer of 64 bits is read as it was written. -/
theorem readsBack_integer {n : Int} (lower : -(twoTo 63 : Int) ≤ n) (upper : n < twoTo 64)
    (item : Option (Reader Value)) :
    ReadsBack (readValueWith item) (Text.utf8 (Number.integer n).text) (.number (.integer n)) := by
  rw [utf8_text_integer]
  split
  · next hsign =>
    obtain ⟨k, rfl⟩ := Int.eq_ofNat_of_zero_le hsign
    exact readsBack_digits (Nat.le_sub_one_of_lt (Int.ofNat_lt.mp upper)) item
  · next hsign =>
    obtain ⟨k, rfl⟩ : ∃ k : Nat, n = -k := ⟨(-n).toNat, by omega⟩
    rw [Int.neg_neg, Int.toNat_natCast]
    exact readsBack_minus (by omega) (by omega) item

/-- A string is read as it was written. -/
theorem readsBack_string (s : String) (item : Option (Reader Value)) :
    ReadsBack (readValueWith item) (Text.utf8 (stringText s)) (.string s) := by
  rw [utf8_stringText]
  refine ⟨⟨34, _, rfl, by decide⟩, ?_⟩
  intro rest _
  rw [List.cons_append, readValueWith, skipBlanks_cons (by decide)]
  show (readString (quotedBytes s ++ rest)).bind (fun r => .ok (Value.string r.1, r.2)) = _
  rw [readString_quotedBytes]
  rfl

/-- An array is read as it was written, if its items are. -/
theorem readsBack_array {item : Reader Value} {vs : List Value}
    (items : ∀ v ∈ vs, ReadsBack item (Text.utf8 v.compact) v) :
    ReadsBack (readValueWith (some item)) (Text.utf8 (Value.array vs).compact) (.array vs) := by
  have hbytes : Text.utf8 (Value.array vs).compact
      = 91 :: (seriesBytes (fun v => Text.utf8 v.compact) vs ++ [93]) := by
    rw [Value.compact, compactItems_eq, Text.utf8_append, Text.utf8_append, utf8_intercalate]
    rfl
  rw [hbytes]
  refine ⟨⟨91, _, rfl, by decide⟩, ?_⟩
  intro rest _
  rw [List.cons_append, List.append_assoc, List.singleton_append, readValueWith,
    skipBlanks_cons (by decide)]
  show (readItems item (_ + 1) true _).bind (fun r => .ok (Value.array r.1, r.2)) = _
  rw [readItems_eq, readSeries_series (.inl rfl) items]
  rfl

/-- The bytes of a member of an object. -/
theorem utf8_memberText (m : String × Value) :
    Text.utf8 (memberText m) = 34 :: (quotedBytes m.1 ++ 58 :: Text.utf8 m.2.compact) := by
  rw [memberText, Text.utf8_append, Text.utf8_append, utf8_stringText, List.append_assoc]
  rfl

/-- A member is read as it was written, if its value is. -/
theorem readsBack_member {item : Reader Value} {m : String × Value}
    (value : ReadsBack item (Text.utf8 m.2.compact) m.2) :
    ReadsBack (readMember item) (Text.utf8 (memberText m)) m := by
  rw [utf8_memberText]
  refine ⟨⟨34, _, rfl, by decide⟩, ?_⟩
  intro rest ends
  rw [List.cons_append, List.append_assoc, List.cons_append, readMember,
    readString_quotedBytes]
  simp only [bind, Except.bind, skipBlanks_cons (show isBlank 58 = false by decide)]
  rw [value.reads rest ends]

/-- An object is read as it was written, if its values are and its members are in increasing
order of their keys. -/
theorem readsBack_object {item : Reader Value} {ms : List (String × Value)}
    (increasing : ms.Pairwise fun m n => m.1 < n.1)
    (values : ∀ m ∈ ms, ReadsBack item (Text.utf8 m.2.compact) m.2) :
    ReadsBack (readValueWith (some item)) (Text.utf8 (Value.object ms).compact)
      (.object ms) := by
  have hbytes : Text.utf8 (Value.object ms).compact
      = 123 :: (seriesBytes (fun m => Text.utf8 (memberText m)) ms ++ [125]) := by
    rw [Value.compact, compactMembers_eq, Text.utf8_append, Text.utf8_append, utf8_intercalate]
    rfl
  rw [hbytes]
  refine ⟨⟨123, _, rfl, by decide⟩, ?_⟩
  intro rest _
  rw [List.cons_append, List.append_assoc, List.singleton_append, readValueWith,
    skipBlanks_cons (by decide)]
  show (readMembers item (_ + 1) true _).bind (fun r => .ok (Value.ofMembers r.1, r.2)) = _
  rw [readMembers_eq, readSeries_series (.inr rfl) fun m hm => readsBack_member (values m hm)]
  rw [← ofMembers_of_increasing increasing]
  rfl

/-- **A plain value is read as it was written.** -/
theorem readsBack_compact {depth : Nat} {v : Value} (plain : v.Plain depth) :
    ReadsBack (readValue depth) (Text.utf8 v.compact) v := by
  -- a value with nothing inside is read at every level
  have hflat {depth : Nat} {v : Value}
      (h : ∀ item, ReadsBack (readValueWith item) (Text.utf8 v.compact) v) :
      ReadsBack (readValue depth) (Text.utf8 v.compact) v := by
    cases depth with
    | zero => exact h none
    | succ depth => exact h (some (readValue depth))
  induction plain with
  | null =>
    exact hflat fun item => ⟨⟨110, _, rfl, by decide⟩, fun rest _ => rfl⟩
  | bool b =>
    cases b with
    | true => exact hflat fun item => ⟨⟨116, _, rfl, by decide⟩, fun rest _ => rfl⟩
    | false => exact hflat fun item => ⟨⟨102, _, rfl, by decide⟩, fun rest _ => rfl⟩
  | integer lower upper => exact hflat (readsBack_integer lower upper)
  | string s => exact hflat (readsBack_string s)
  | array _ ih => exact readsBack_array ih
  | object increasing _ ih => exact readsBack_object increasing ih

/-- **A document is read as it was written.** -/
theorem parse_compact {v : Value} (plain : v.Plain maxDepth) :
    parse (Text.utf8 v.compact) = .ok v := by
  have hread := (readsBack_compact plain).reads [] (fun b hb => nomatch hb)
  rw [List.append_nil] at hread
  rw [parse, readDocument, hread]
  rfl

end Json

end TreeQuery
