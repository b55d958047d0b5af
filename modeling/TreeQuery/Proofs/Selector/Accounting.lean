import TreeQuery.Proofs.Engine.ReducedQueries

/-!
# Accounting for a text

Every character of a text is in a token, in a separator of clauses or in what a scan leaves over.
`scanBytes?` is the scan on the UTF-8 form of a text: it cuts texts at byte offsets only, gives
nothing where an offset falls within a character or a turn leaves as much as it found, and agrees
with `scan` on every text.
-/

namespace TreeQuery

section Offsets

/-- The parts of a text before and after a byte offset. There are none where the offset falls
within a character or behind the text. -/
def splitAtByte? (text : String) (offset : Nat) : Option (String × String) :=
  (text.pos? ⟨offset⟩).map fun p => ((text.sliceTo p).copy, (text.sliceFrom p).copy)

/-- The byte offset of the first closing parenthesis. -/
def closingByte? (text : String) : Option Nat :=
  (text.find? ')').map fun p => p.offset.byteIdx

lemma exists_splits (front back : String) :
    ∃ p : (front ++ back).Pos, p.Splits front back :=
  ⟨(front ++ back).pos front.rawEndPos
    (String.Pos.Raw.isValid_iff_exists_append.mpr ⟨front, back, rfl, rfl⟩), rfl, rfl⟩

lemma splitAtByte?_append (front back : String) :
    splitAtByte? (front ++ back) front.utf8ByteSize = some (front, back) := by
  obtain ⟨p, hp⟩ := exists_splits front back
  obtain ⟨hfront, hback⟩ := p.splits.eq hp
  have hoffset : (⟨front.utf8ByteSize⟩ : String.Pos.Raw) = p.toSlice.offset :=
    hp.offset_eq_rawEndPos.symm
  have hpos : (front ++ back).pos? ⟨front.utf8ByteSize⟩ = some p := by
    rw [String.pos?, String.Slice.pos?, hoffset,
      dif_pos (String.Pos.Raw.isValidForSlice_eq_true_iff.mpr p.toSlice.isValidForSlice)]
    rfl
  rw [splitAtByte?, hpos, Option.map_some, hfront, hback]

lemma utf8ByteSize_ofList_append (front back : List Char) :
    (String.ofList (front ++ back)).utf8ByteSize =
      (String.ofList front).utf8ByteSize + (String.ofList back).utf8ByteSize := by
  rw [String.ofList_append, String.utf8ByteSize_append]

lemma splitAtByte?_ofList {offset : Nat} (front back : List Char)
    (h : offset = (String.ofList front).utf8ByteSize) :
    splitAtByte? (String.ofList (front ++ back)) offset =
      some (String.ofList front, String.ofList back) := by
  rw [h, String.ofList_append, splitAtByte?_append]

lemma closingByte?_append {front : String} (h : ')' ∉ front.toList) (back : String) :
    closingByte? (front ++ (String.singleton ')' ++ back)) = some front.utf8ByteSize := by
  obtain ⟨p, hp⟩ := exists_splits front (String.singleton ')' ++ back)
  have hfind := String.find?_char_eq_some_iff_splits.mpr ⟨front, back, hp, h⟩
  rw [closingByte?, hfind, Option.map_some, hp.offset_eq_rawEndPos]
  rfl

lemma closingByte?_eq_none {text : String} (h : ')' ∉ text.toList) :
    closingByte? text = none := by
  rw [closingByte?, Option.map_eq_none_iff]
  cases hfind : text.find? ')' with
  | none => rfl
  | some p =>
    obtain ⟨front, back, hp, -⟩ := String.find?_char_eq_some_iff_splits.mp hfind
    exact absurd (by rw [hp.eq_append]; simp) h

example : splitAtByte? "aé" 1 = some ("a", "é") ∧ splitAtByte? "aé" 2 = none := by decide +kernel

end Offsets

section Bytes

/-- The text of a call and its argument, cut in front of the first parenthesis among the last
`excess` bytes of the argument. The text ends with the argument and a parenthesis. -/
def shorten? (raw argument : String) (excess : Nat) : Option (String × String) :=
  if excess = 0 then some (raw, argument)
  else do
    guard (excess ≤ argument.utf8ByteSize)
    let start := argument.utf8ByteSize - excess
    let (_, left) ← splitAtByte? argument start
    match closingByte? left with
    | none => return (raw, argument)
    | some offset =>
      let cut := argument.utf8ByteSize - (start + offset)
      guard (cut ≤ raw.utf8ByteSize)
      let (raw, _) ← splitAtByte? raw (raw.utf8ByteSize - cut)
      let (argument, _) ← splitAtByte? argument (start + offset)
      return (raw, argument)

/-- What stands behind the first bytes of a text. It has to be shorter than the text. -/
def advance? (text : String) (taken : Nat) :
    Option {rest : String // rest.utf8ByteSize < text.utf8ByteSize} := do
  let (_, rest) ← splitAtByte? text taken
  if h : rest.utf8ByteSize < text.utf8ByteSize then return ⟨rest, h⟩ else none

/-- The clauses that were read and the number of bytes left. -/
structure ByteScan where
  first : Clause
  later : List Clause
  remaining : Nat

namespace ByteScan

def cons (t : Token) (s : ByteScan) : ByteScan :=
  { s with first := t :: s.first }

def separated (s : ByteScan) : ByteScan :=
  { s with first := [], later := s.first :: s.later }

def clauses (s : ByteScan) : List Clause :=
  s.first :: s.later

end ByteScan

lemma utf8ByteSize_argument_lt {text : String} {name : String} {head argument rest : List Char}
    (h : (Lexeme.nested name head argument rest).Splits text.toList) :
    (String.ofList argument).utf8ByteSize < text.utf8ByteSize := by
  obtain ⟨htext, -⟩ := h
  have hsize := congrArg (fun cs => (String.ofList cs).utf8ByteSize) htext
  simp only [String.ofList_toList, String.ofList_append, String.ofList_cons,
    String.utf8ByteSize_append, String.utf8ByteSize_singleton] at hsize
  have hpos := Char.utf8Size_pos ')'
  omega

/-- The scan in bytes. A probe ends in front of a fault; otherwise the fault is the outcome. -/
def scanBytes? (probing afterToken : Bool) (text : String) :
    Option (Except SelectorError ByteScan) :=
  match _h : Lexeme.next afterToken text.toList with
  | .separator rest => do
    let gap := String.ofList (before text.toList rest)
    let ⟨rest, _⟩ ← advance? text gap.utf8ByteSize
    return (← scanBytes? probing false rest).map .separated
  | .token value rest => do
    let raw := String.ofList (before text.toList rest)
    let ⟨rest, _⟩ ← advance? text raw.utf8ByteSize
    return (← scanBytes? probing true rest).map (.cons ⟨raw, value⟩)
  | .nested name head argument _ => do
    let whole := String.ofList (head ++ argument ++ [')'])
    let argument := String.ofList argument
    let excess := match ← scanBytes? true false argument with
      | .ok probed => probed.remaining
      | .error _ => argument.utf8ByteSize
    let (raw, argument) ← shorten? whole argument excess
    let ⟨rest, _⟩ ← advance? text raw.utf8ByteSize
    return (← scanBytes? probing true rest).map
      (.cons ⟨raw, .pseudo ⟨name, some argument, false⟩⟩)
  | .fault e => return if probing then .ok ⟨[], [], text.utf8ByteSize⟩ else .error e
  | .unknown => return .ok ⟨[], [], text.utf8ByteSize⟩
termination_by text.utf8ByteSize
decreasing_by
  · assumption
  · assumption
  · exact utf8ByteSize_argument_lt (_h ▸ Lexeme.next_splits afterToken text.toList)
  · assumption

/-- The outcome of a scan, with what is left counted in bytes. -/
def Scan.inBytes (probing : Bool) (s : Scan) : Except SelectorError ByteScan :=
  match s.fault with
  | some e =>
    if probing then .ok ⟨s.first, s.later, (String.ofList s.rest).utf8ByteSize⟩ else .error e
  | none => .ok ⟨s.first, s.later, (String.ofList s.rest).utf8ByteSize⟩

end Bytes

section Agreement

variable {probing afterToken : Bool} {text : String}

lemma Scan.inBytes_cons (probing : Bool) (t : Token) (s : Scan) :
    (s.cons t).inBytes probing = (s.inBytes probing).map (.cons t) := by
  obtain ⟨first, later, rest, fault⟩ := s
  cases fault <;> cases probing <;> rfl

lemma Scan.inBytes_separated (probing : Bool) (s : Scan) :
    s.separated.inBytes probing = (s.inBytes probing).map .separated := by
  obtain ⟨first, later, rest, fault⟩ := s
  cases fault <;> cases probing <;> rfl

lemma Scan.eq_of_inBytes {s : Scan} {found : ByteScan} (h : s.inBytes probing = .ok found) :
    found = ⟨s.first, s.later, (String.ofList s.rest).utf8ByteSize⟩ := by
  obtain ⟨first, later, rest, fault⟩ := s
  cases fault <;> cases probing <;> cases h <;> rfl

lemma Scan.inBytes_probing (s : Scan) :
    s.inBytes true = .ok ⟨s.first, s.later, (String.ofList s.rest).utf8ByteSize⟩ := by
  obtain ⟨first, later, rest, fault⟩ := s
  cases fault <;> rfl

lemma advance?_eq {raw rest : List Char} (htext : text.toList = raw ++ rest) (hne : raw ≠ []) :
    ∃ hlt, advance? text (String.ofList raw).utf8ByteSize = some ⟨String.ofList rest, hlt⟩ := by
  obtain rfl : text = String.ofList (raw ++ rest) := by rw [← htext, String.ofList_toList]
  have hpos : (String.ofList raw).utf8ByteSize ≠ 0 := by
    rwa [Ne, String.utf8ByteSize_eq_zero_iff, String.ofList_eq_empty_iff]
  have hlt : (String.ofList rest).utf8ByteSize < (String.ofList (raw ++ rest)).utf8ByteSize := by
    rw [utf8ByteSize_ofList_append]
    omega
  refine ⟨hlt, ?_⟩
  simp only [advance?, splitAtByte?_ofList raw rest rfl, Option.bind_eq_bind, Option.bind_some,
    dif_pos hlt, Option.pure_def]

section Cuts

variable {consumed left front more : List Char}

/-- The search for a parenthesis starts where the probe stopped. -/
theorem shorten?_start (raw : String) (h : left ≠ []) :
    shorten? raw (String.ofList (consumed ++ left)) (String.ofList left).utf8ByteSize =
      match closingByte? (String.ofList left) with
      | none => some (raw, String.ofList (consumed ++ left))
      | some offset => do
        let cut := (String.ofList left).utf8ByteSize - offset
        guard (cut ≤ raw.utf8ByteSize)
        let (raw, _) ← splitAtByte? raw (raw.utf8ByteSize - cut)
        let (argument, _) ← splitAtByte? (String.ofList (consumed ++ left))
          ((String.ofList consumed).utf8ByteSize + offset)
        return (raw, argument) := by
  have htotal := utf8ByteSize_ofList_append consumed left
  have hne : (String.ofList left).utf8ByteSize ≠ 0 := by
    rwa [Ne, String.utf8ByteSize_eq_zero_iff, String.ofList_eq_empty_iff]
  have hle : (String.ofList left).utf8ByteSize ≤
      (String.ofList (consumed ++ left)).utf8ByteSize := by omega
  have hstart : (String.ofList (consumed ++ left)).utf8ByteSize -
      (String.ofList left).utf8ByteSize = (String.ofList consumed).utf8ByteSize := by omega
  have hcut : ∀ offset, (String.ofList (consumed ++ left)).utf8ByteSize -
      ((String.ofList consumed).utf8ByteSize + offset) =
        (String.ofList left).utf8ByteSize - offset := by
    intro offset
    omega
  simp only [shorten?, if_neg hne, hstart, splitAtByte?_ofList consumed left rfl, hcut, guard,
    if_pos hle, Option.pure_def, Option.bind_eq_bind, Option.bind_some]

lemma shorten?_open (raw : String) (h : ')' ∉ left) :
    shorten? raw (String.ofList (consumed ++ left)) (String.ofList left).utf8ByteSize =
      some (raw, String.ofList (consumed ++ left)) := by
  by_cases hne : left = []
  · subst hne
    exact if_pos rfl
  · rw [shorten?_start raw hne, closingByte?_eq_none (by rwa [String.toList_ofList])]

/-- The parenthesis at the end of the call takes the place of the one it is cut at. -/
theorem shorten?_cut (head : List Char) (h : ')' ∉ front) :
    shorten? (String.ofList (head ++ (consumed ++ (front ++ ')' :: more)) ++ [')']))
        (String.ofList (consumed ++ (front ++ ')' :: more)))
        (String.ofList (front ++ ')' :: more)).utf8ByteSize =
      some (String.ofList (head ++ (consumed ++ front) ++ [')']),
        String.ofList (consumed ++ front)) := by
  have hclosing : closingByte? (String.ofList (front ++ ')' :: more)) =
      some (String.ofList front).utf8ByteSize := by
    rw [String.ofList_append, String.ofList_cons]
    exact closingByte?_append (by rwa [String.toList_ofList]) _
  have hcut : (String.ofList (front ++ ')' :: more)).utf8ByteSize -
      (String.ofList front).utf8ByteSize = (String.ofList (more ++ [')'])).utf8ByteSize := by
    rw [utf8ByteSize_ofList_append, ← List.singleton_append, utf8ByteSize_ofList_append,
      utf8ByteSize_ofList_append]
    omega
  have hraw : head ++ (consumed ++ (front ++ ')' :: more)) ++ [')'] =
      (head ++ (consumed ++ front) ++ [')']) ++ (more ++ [')']) := by simp
  have hargument : consumed ++ (front ++ ')' :: more) = (consumed ++ front) ++ ')' :: more := by
    simp
  have hsize := utf8ByteSize_ofList_append (head ++ (consumed ++ front) ++ [')']) (more ++ [')'])
  have hle : (String.ofList (more ++ [')'])).utf8ByteSize ≤
      (String.ofList ((head ++ (consumed ++ front) ++ [')']) ++ (more ++ [')']))).utf8ByteSize := by
    omega
  have hkept : splitAtByte?
      (String.ofList (head ++ (consumed ++ front) ++ [')'] ++ (more ++ [')'])))
      ((String.ofList (head ++ (consumed ++ front) ++ [')'] ++ (more ++ [')']))).utf8ByteSize -
        (String.ofList (more ++ [')'])).utf8ByteSize) =
      some (String.ofList (head ++ (consumed ++ front) ++ [')']), String.ofList (more ++ [')'])) :=
    splitAtByte?_ofList _ _ (by omega)
  have hinner := splitAtByte?_ofList (consumed ++ front) (')' :: more)
    (utf8ByteSize_ofList_append consumed front).symm
  rw [shorten?_start _ (by simp), hclosing, hraw, hargument]
  simp only [hcut, guard, if_pos hle, hkept, hinner, Option.pure_def, Option.bind_eq_bind,
    Option.bind_some]

/-- A call is cut between characters, where `splitUnread` cuts it. -/
theorem shorten?_append (head consumed left : List Char) :
    shorten? (String.ofList (head ++ (consumed ++ left) ++ [')']))
        (String.ofList (consumed ++ left)) (String.ofList left).utf8ByteSize =
      some (String.ofList (head ++ (splitUnread (consumed ++ left) left.length).1 ++ [')']),
        String.ofList (splitUnread (consumed ++ left) left.length).1) := by
  have hleft : left.takeWhile (· != ')') ++ left.dropWhile (· != ')') = left :=
    List.takeWhile_append_dropWhile
  have hopen : ')' ∉ left.takeWhile (· != ')') := fun hmem =>
    absurd (List.mem_takeWhile_imp hmem) (by decide)
  rw [splitUnread_of_append]
  generalize left.takeWhile (· != ')') = front at hleft hopen ⊢
  cases hback : left.dropWhile (· != ')') with
  | nil =>
    rw [hback, List.append_nil] at hleft
    subst hleft
    exact shorten?_open _ hopen
  | cons c more =>
    obtain rfl : c = ')' := by
      have hstop := List.head?_dropWhile_not (· != ')') left
      rw [hback] at hstop
      simpa using hstop
    rw [hback] at hleft
    subst hleft
    exact shorten?_cut head hopen

end Cuts

/-- The scan in bytes always has an outcome, and it is that of the scan of the characters. -/
theorem scanBytes?_eq (probing afterToken : Bool) (text : String) :
    scanBytes? probing afterToken text =
      some ((scan afterToken text.toList).inBytes probing) := by
  have hsplits := Lexeme.next_splits afterToken text.toList
  rw [scanBytes?, Written.scan_eq]
  split <;> rename_i hnext <;> rw [hnext] at hsplits ⊢
  · rename_i rest
    obtain ⟨gap, hgap, hne⟩ := hsplits
    obtain ⟨hlt, hadvance⟩ := advance?_eq hgap hne
    have ih := scanBytes?_eq probing false (String.ofList rest)
    rw [String.toList_ofList] at ih
    have hbefore : before text.toList rest = gap := by rw [hgap, before_append_left]
    simp only [hbefore, hadvance, ih, Option.pure_def, Option.bind_eq_bind, Option.bind_some,
      Written.scanLexeme, Scan.inBytes_separated]
  · rename_i value rest
    obtain ⟨raw, hraw, hne⟩ := hsplits
    obtain ⟨hlt, hadvance⟩ := advance?_eq hraw hne
    have ih := scanBytes?_eq probing true (String.ofList rest)
    rw [String.toList_ofList] at ih
    have hbefore : before text.toList rest = raw := by rw [hraw, before_append_left]
    simp only [hbefore, hadvance, ih, Option.pure_def, Option.bind_eq_bind, Option.bind_some,
      Written.scanLexeme, Scan.inBytes_cons]
  · rename_i name head argument after
    have hshorter := utf8ByteSize_argument_lt hsplits
    have hprobe := scanBytes?_eq true false (String.ofList argument)
    rw [String.toList_ofList, Scan.inBytes_probing] at hprobe
    obtain ⟨htext, -⟩ := hsplits
    obtain ⟨consumed, hargument⟩ := scan_rest_suffix false argument
    have hcut := shorten?_append head consumed (scan false argument).rest
    rw [hargument] at hcut
    rw [Written.scanLexeme, Scan.inBytes_cons]
    have hfront := splitUnread_front argument after (scan false argument).rest.length
    generalize splitUnread argument (scan false argument).rest.length = split at hcut hfront ⊢
    have htaken : text.toList = (head ++ split.1 ++ [')']) ++ (split.2 ++ ')' :: after).tail := by
      rw [htext, List.append_assoc, hfront]
      simp
    obtain ⟨hlt, hadvance⟩ := advance?_eq htaken (by simp)
    have ih := scanBytes?_eq probing true (String.ofList (split.2 ++ ')' :: after).tail)
    rw [String.toList_ofList] at ih
    simp only [hprobe, hcut, hadvance, ih, Option.pure_def, Option.bind_eq_bind, Option.bind_some]
  · rename_i e
    cases probing <;> simp [Written.scanLexeme, Scan.inBytes, String.ofList_toList]
  · simp [Written.scanLexeme, Scan.inBytes, String.ofList_toList]
termination_by text.utf8ByteSize

end Agreement

section Accounts

variable {afterToken : Bool} {text rest : List Char} {clause : Clause} {clauses : List Clause}

/-- A comma and the blanks around it. -/
def IsSeparator (gap : List Char) : Prop :=
  ∃ before after, gap = before ++ ',' :: after ∧ ∀ c ∈ before ++ after, isBlank c = true

/-- The texts of clauses with a separator in front of each of them but the first. -/
inductive Joined : List Clause → List Char → Prop
  | single (clause : Clause) : Joined [clause] clause.chars
  | separated (clause : Clause) {gap text : List Char} {clauses : List Clause} :
    IsSeparator gap → Joined clauses text → Joined (clause :: clauses) (clause.chars ++ gap ++ text)

lemma Joined.cons (t : Token) (h : Joined (clause :: clauses) text) :
    Joined ((t :: clause) :: clauses) (t.raw.toList ++ text) := by
  cases h with
  | single => exact .single (t :: clause)
  | separated clause hgap hlater =>
    simp only [← List.append_assoc, ← Clause.chars_cons]
    exact .separated (t :: clause) hgap hlater

/-- What a comma takes, and that a text that starts with no blank goes on behind it. -/
theorem Lexeme.next_separator
    (h : (Lexeme.next afterToken text).item? = some (none, rest)) :
    (∃ gap, IsSeparator gap ∧ text = gap ++ rest) ∧ rest ≠ [] ∧ dropBlanks rest = rest := by
  have hsplit : ∀ cs, cs = cs.takeWhile isBlank ++ dropBlanks cs ∧
      ∀ c ∈ cs.takeWhile isBlank, isBlank c = true :=
    fun cs => ⟨List.takeWhile_append_dropWhile.symm, fun c hc => List.mem_takeWhile_imp hc⟩
  cases hdrop : dropBlanks text with
  | nil =>
    by_cases hne : text = []
    · subst hne
      cases afterToken <;> cases h
    · rw [next_of_nil hdrop hne] at h
      cases h
  | cons c more =>
    rw [next_of_cons hdrop] at h
    split at h
    · rename_i hcomma
      have hrest := (Prod.mk.inj (Lexeme.separation_item? h)).2
      obtain ⟨htext, hbefore⟩ := hsplit text
      obtain ⟨hmore, hafter⟩ := hsplit more
      refine ⟨⟨text.takeWhile isBlank ++ ',' :: more.takeWhile isBlank, ⟨_, _, rfl, ?_⟩, ?_⟩,
        ?_, ?_⟩
      · exact fun d hd => (List.mem_append.mp hd).elim (hbefore d) (hafter d)
      · rw [hrest, List.append_assoc, List.cons_append, ← hmore, ← hcomma.2, ← hdrop, ← htext]
      · rintro rfl
        rw [← hrest] at h
        cases h
      · rw [hrest]
        exact dropBlanks_dropBlanks more
    · split at h
      · cases h
      · split at h
        · cases h
        · obtain ⟨value, hvalue, -⟩ := simpleTest_start h
          cases hvalue

/-- Tokens and separators are all that a scan takes. -/
theorem scan_joined (afterToken : Bool) (text : List Char) :
    ∃ consumed, Joined (scan afterToken text).clauses consumed ∧
      text = consumed ++ (scan afterToken text).rest := by
  cases hitem : (Lexeme.next afterToken text).item? with
  | none =>
    obtain ⟨hclauses, hrest⟩ := scan_of_none hitem
    rw [hclauses, hrest]
    exact ⟨[], .single [], rfl⟩
  | some found =>
    obtain ⟨item, rest⟩ := found
    obtain ⟨raw, htext, hne, -⟩ := Lexeme.next_raw hitem
    have hlt := length_lt_of_splits ⟨htext, hne⟩
    obtain ⟨consumed, hjoined, hrest⟩ := scan_joined item.isSome rest
    rw [scan_rest_of_item hitem]
    cases item with
    | none =>
      obtain ⟨⟨gap, hgap, htext⟩, -⟩ := Lexeme.next_separator hitem
      rw [scan_of_comma hitem]
      refine ⟨gap ++ consumed, .separated [] hgap hjoined, ?_⟩
      rw [htext, List.append_assoc]
      exact congrArg (gap ++ ·) hrest
    | some value =>
      rw [scan_of_token hitem]
      have hbefore : before text rest = raw := by rw [htext, before_append_left]
      refine ⟨raw ++ consumed, ?_, ?_⟩
      · have hcons := hjoined.cons ⟨String.ofList raw, value⟩
        rw [String.toList_ofList] at hcons
        rwa [hbefore]
      · rw [htext, List.append_assoc]
        exact congrArg (raw ++ ·) hrest
termination_by text.length

lemma scan_raw_ne (afterToken : Bool) (text : List Char) :
    ∀ clause ∈ (scan afterToken text).clauses, ∀ t ∈ clause, t.raw ≠ "" := by
  cases hitem : (Lexeme.next afterToken text).item? with
  | none =>
    rw [(scan_of_none hitem).1]
    simp
  | some found =>
    obtain ⟨item, rest⟩ := found
    obtain ⟨raw, htext, hne, -⟩ := Lexeme.next_raw hitem
    have hlt := length_lt_of_splits ⟨htext, hne⟩
    have ih := scan_raw_ne item.isSome rest
    cases item with
    | none =>
      rw [scan_of_comma hitem]
      intro clause hclause t ht
      obtain rfl | hclause := List.mem_cons.mp hclause
      · cases ht
      · exact ih clause hclause t ht
    | some value =>
      rw [scan_of_token hitem]
      intro clause hclause t ht
      obtain rfl | ⟨clause, hclause, ht⟩ := Scan.mem_clauses_cons hclause ht
      · rw [htext, before_append_left]
        exact String.ofList_eq_empty_iff.not.mpr hne
      · exact ih clause hclause t ht
termination_by text.length

/-- What a scan has taken and left of a text: the tokens with the separators between the clauses
are the text up to its last `remaining` bytes, and no token is empty. -/
structure Accounts (text : String) (clauses : List Clause) (remaining : Nat) : Prop where
  parts : ∃ consumed rest, Joined clauses consumed ∧ text = String.ofList consumed ++ rest ∧
    rest.utf8ByteSize = remaining ∧
      splitAtByte? text (text.utf8ByteSize - remaining) = some (String.ofList consumed, rest)
  raw_ne : ∀ clause ∈ clauses, ∀ t ∈ clause, t.raw ≠ ""

/-- Whether a clause has tokens, no combinator at its end and no two combinators side by side. -/
structure Clause.WellFormed (clause : Clause) : Prop where
  ne_nil : clause ≠ []
  last : ∀ t ∈ clause.getLast?, t.isCombinator = false
  apart : clause.IsChain fun t u => ¬(t.isCombinator = true ∧ u.isCombinator = true)

lemma Clause.wellFormed_of_check (h : clause.check = .ok ()) : clause.WellFormed := by
  obtain ⟨hne, hlast, hchain⟩ := (Clause.check_eq_ok_iff clause).mp h
  refine ⟨hne, fun t ht => ?_, ?_⟩
  · rw [show clause.getLast? = some t from ht] at hlast
    exact hlast
  · refine ((List.isChain_map _).mp hchain).imp fun t u h hboth => ?_
    rw [hboth.1, hboth.2] at h
    cases h

end Accounts

namespace SelectorList

section Acceptance

lemma forM_check_eq_ok_iff (clauses : List Clause) :
    clauses.forM Clause.check = .ok () ↔ ∀ clause ∈ clauses, clause.check = .ok () := by
  induction clauses with
  | nil => exact ⟨fun _ => nofun, fun _ => rfl⟩
  | cons clause clauses ih =>
    rw [List.forall_mem_cons, ← ih]
    change (do clause.check; clauses.forM Clause.check) = _ ↔ _
    cases clause.check with
    | ok => exact ⟨fun h => ⟨rfl, h⟩, fun h => h.2⟩
    | error e => exact ⟨nofun, fun h => nomatch h.1⟩

/-- A text is accepted if the scan of it without blanks around it leaves nothing and every clause is
well formed. -/
theorem parse_eq_ok_iff {text : String} {list : SelectorList} :
    parse text = .ok list ↔
      trimBlanks text.toList ≠ [] ∧ (scan false (trimBlanks text.toList)).fault = none ∧
        (scan false (trimBlanks text.toList)).rest = [] ∧
        (∀ clause ∈ list.clauses, clause.check = .ok ()) ∧
        list = ⟨String.ofList (trimBlanks text.toList),
          (scan false (trimBlanks text.toList)).clauses⟩ := by
  have hforM := forM_check_eq_ok_iff (scan false (trimBlanks text.toList)).clauses
  simp only [parse, bind, Except.bind, throw, throwThe, MonadExceptOf.throw, pure, Except.pure]
  generalize trimBlanks text.toList = trimmed at hforM ⊢
  generalize scan false trimmed = found at hforM ⊢
  obtain ⟨first, later, rest, fault⟩ := found
  constructor
  · intro h
    split at h
    · cases h
    rename_i hne
    cases fault with
    | some e => cases h
    | none =>
      cases rest with
      | cons c rest => cases h
      | nil =>
        dsimp only at h
        rw [if_pos List.isEmpty_nil] at h
        cases hchecks : (Scan.clauses ⟨first, later, [], none⟩).forM Clause.check with
        | error e =>
          rw [hchecks] at h
          cases h
        | ok =>
          rw [hchecks] at h
          obtain rfl := Except.ok.inj h
          exact ⟨by simpa using hne, rfl, rfl, hforM.mp hchecks, rfl⟩
  · rintro ⟨hne, rfl, rfl, hcheck, rfl⟩
    rw [if_neg (by simpa using hne)]
    dsimp only
    rw [if_pos List.isEmpty_nil, hforM.mpr hcheck]

end Acceptance

section Main

lemma accounts_scan (text : String) :
    Accounts text (scan false text.toList).clauses (unread text) := by
  obtain ⟨consumed, hjoined, htext⟩ := scan_joined false text.toList
  rw [unread]
  generalize (scan false text.toList).rest = rest at htext
  have htext' : text = String.ofList (consumed ++ rest) := by rw [← htext, String.ofList_toList]
  have hsize := utf8ByteSize_ofList_append consumed rest
  refine ⟨⟨consumed, String.ofList rest, hjoined, ?_, rfl, ?_⟩, scan_raw_ne false text.toList⟩
  · rw [htext', String.ofList_append]
  · rw [htext']
    exact splitAtByte?_ofList consumed rest (by omega)

/-- In both modes the scan of a text has an outcome: no offset falls within a character and every
turn leaves less than it found. Every character is in a token, in a separator of clauses or among
the bytes that are left. -/
theorem scan_accounts (text : String) :
    (∀ probing, ∃ outcome, scanBytes? probing false text = some outcome ∧
      outcome = (scan false text.toList).inBytes probing ∧
        ∀ s, outcome = .ok s → s.remaining = unread text ∧ Accounts text s.clauses s.remaining) ∧
      Accounts text (scan false text.toList).clauses (unread text) ∧
        ∀ list, parse text = .ok list →
          list.source = String.ofList (trimBlanks text.toList) ∧
            (∃ s, scanBytes? false false list.source = some (.ok s) ∧ s.clauses = list.clauses ∧
              s.remaining = 0) ∧
            Accounts list.source list.clauses 0 ∧ ∀ clause ∈ list.clauses, clause.WellFormed := by
  have haccounts := accounts_scan text
  refine ⟨fun probing => ⟨_, scanBytes?_eq probing false text, rfl, fun s hs => ?_⟩, haccounts,
    fun list hparse => ?_⟩
  · obtain rfl := Scan.eq_of_inBytes hs
    exact ⟨rfl, haccounts⟩
  · obtain ⟨-, hfault, hrest, hcheck, rfl⟩ := parse_eq_ok_iff.mp hparse
    have hread := scanBytes?_eq false false (String.ofList (trimBlanks text.toList))
    have hsource := accounts_scan (String.ofList (trimBlanks text.toList))
    rw [unread] at hsource
    rw [String.toList_ofList] at hread hsource
    generalize scan false (trimBlanks text.toList) = found at hcheck hfault hrest hread hsource
    obtain ⟨first, later, rest, fault⟩ := found
    subst hfault hrest
    exact ⟨rfl, ⟨_, hread, rfl, rfl⟩, hsource, fun clause hclause =>
      Clause.wellFormed_of_check (hcheck clause hclause)⟩

def accountedList : SelectorList :=
  ⟨":is(:not(é) b):not(ü) , p", [[⟨":is(:not(é) b)", .pseudo ⟨"is", some ":not(é) b", false⟩⟩,
    ⟨":not(ü)", .pseudo ⟨"not", some "ü", false⟩⟩], [⟨"p", .tag "p"⟩]]⟩

theorem scan_accounts_sample :
    parse " :is(:not(é) b):not(ü) , p\t" = .ok accountedList ∧
      Accounts ":is(:not(é) b):not(ü) , p" accountedList.clauses 0 ∧
        ∀ clause ∈ accountedList.clauses, clause.WellFormed := by
  have hparse : parse " :is(:not(é) b):not(ü) , p\t" = .ok accountedList := by decide +kernel
  obtain ⟨-, -, hread⟩ := scan_accounts " :is(:not(é) b):not(ü) , p\t"
  obtain ⟨-, -, haccounts, hclauses⟩ := hread _ hparse
  exact ⟨hparse, haccounts, hclauses⟩

end Main

end SelectorList

end TreeQuery
