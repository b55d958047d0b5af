import Mathlib.Data.List.Nodup
import TreeQuery.Compile.Compiler
import TreeQuery.Proofs.Selector.Written.Places

/-!
# Positional pseudo-classes

A positional pseudo-class keeps some places of the row of candidates. Which places these are is
computed in signed 64-bit numbers, with additions that stop at the ends of the range. For every
index in the range and every row that can be held in memory all numbers on the way are in their
range, and the places are places of the row.
-/

namespace TreeQuery

/-- The pseudo-classes that look at the places of the candidates, with their indexes. -/
inductive Positional where
  | first
  | last
  | even
  | odd
  | eq (n : Int)
  | nth (n : Int)
  | lt (n : Int)
  | gt (n : Int)
  deriving Repr, DecidableEq

/-- A number as a signed 64-bit number, if it is one. -/
def fitSigned? (n : Int) : Option Int :=
  if minSigned ≤ n ∧ n ≤ maxSigned then some n else none

/-- The signed 64-bit number that is closest to a number. -/
def saturated (n : Int) : Int := max minSigned (min maxSigned n)

/-- A number as a place in a row. A negative one is none. -/
def fitPlace? (n : Int) : Option Nat := if 0 ≤ n then some n.toNat else none

namespace Positional

def index? : Positional → Option Int
  | eq n | nth n | lt n | gt n => some n
  | _ => none

/-- Whether the index is a signed 64-bit number. -/
def InRange (p : Positional) : Prop := ∀ n ∈ p.index?, minSigned ≤ n ∧ n ≤ maxSigned

/-- The place of an index; negative indexes count from the end. -/
def fromEitherEnd (n length : Int) : Int := if n < 0 then saturated (n + length) else n

/-- The places that are kept of a row of a given length; `none` if a number on the way does not fit
its type. -/
def places? (length : Nat) : Positional → Option (List Nat)
  | first => some (List.range' 0 (min length 1))
  | last => some (if length = 0 then [] else [length - 1])
  | even => some (List.range' 0 ((length + 1) / 2) 2)
  | odd => some (List.range' 1 (length / 2) 2)
  | eq n | nth n => do
    let len ← fitSigned? length
    let index := fromEitherEnd n len
    if 0 ≤ index ∧ index < len then return [← fitPlace? index] else return []
  | lt n => do
    let len ← fitSigned? length
    let stop := if n < 0 then fromEitherEnd n len else min n len
    return List.range' 0 (← fitPlace? (max stop 0))
  | gt n => do
    let len ← fitSigned? length
    let start ← fitPlace? (max 0 (min len (saturated (fromEitherEnd n len + 1))))
    return List.range' start (length - start)

/-- What is kept of a row. -/
def choose : Positional → List NodeId → List NodeId
  | first => (·.take 1)
  | last => fun seed => seed.drop (seed.length - 1)
  | even => evenPlaces
  | odd => fun seed => evenPlaces (seed.drop 1)
  | eq n | nth n => memberAt n
  | lt n => takeBefore n
  | gt n => dropThrough n

end Positional

/-- The members of a row at some of its places. -/
def pick (seed : List NodeId) (places : List Nat) : List NodeId :=
  places.filterMap (seed[·]?)

lemma pick_cons (seed : List NodeId) (i : Nat) (places : List Nat) :
    pick seed (i :: places) = (seed[i]?).toList ++ pick seed places := by
  cases h : seed[i]? <;> simp [pick, h]

lemma pick_range' (seed : List NodeId) (start count : Nat) :
    pick seed (List.range' start count) = (seed.drop start).take count := by
  induction count generalizing start with
  | zero => simp [pick]
  | succ count ih =>
    rw [List.range'_succ, pick_cons, ih]
    by_cases hlt : start < seed.length
    · rw [List.getElem?_eq_getElem hlt, List.drop_eq_getElem_cons hlt]
      rfl
    · rw [List.getElem?_eq_none (by omega), List.drop_eq_nil_of_le (by omega),
        List.drop_eq_nil_of_le (by omega)]
      simp

lemma evenPlaces_cons (a : NodeId) (rest : List NodeId) :
    evenPlaces (a :: rest) = a :: evenPlaces (rest.drop 1) := by
  cases rest <;> rfl

lemma length_evenPlaces (seed : List NodeId) :
    (evenPlaces seed).length = (seed.length + 1) / 2 := by
  fun_induction evenPlaces seed with
  | case1 => rfl
  | case2 a => simp
  | case3 a b rest ih =>
    simp only [List.length_cons, ih]
    omega

lemma pick_range'_two (seed : List NodeId) (start count : Nat) :
    pick seed (List.range' start count 2) = (evenPlaces (seed.drop start)).take count := by
  induction count generalizing start with
  | zero => simp [pick]
  | succ count ih =>
    rw [List.range'_succ, pick_cons, ih]
    by_cases hlt : start < seed.length
    · rw [List.getElem?_eq_getElem hlt, List.drop_eq_getElem_cons hlt, evenPlaces_cons,
        List.drop_drop]
      rfl
    · rw [List.getElem?_eq_none (by omega), List.drop_eq_nil_of_le (by omega),
        List.drop_eq_nil_of_le (by omega), evenPlaces]
      simp

/-- Every other member of a row stands at a place of one parity. -/
theorem evenPlaces_eq_zipIdx (seed : List NodeId) (start : Nat) :
    evenPlaces seed =
      ((seed.zipIdx start).filter fun entry => entry.2 % 2 = start % 2).map (·.1) := by
  fun_induction evenPlaces seed generalizing start with
  | case1 => rfl
  | case2 a => simp
  | case3 a b rest ih =>
    have hne : ¬ (start + 1) % 2 = start % 2 := by omega
    rw [ih (start + 2)]
    simp [List.zipIdx_cons, hne, Nat.add_assoc]

lemma takeBefore_memberAt_dropThrough (n : Int) (seed : List NodeId) :
    takeBefore n seed ++ memberAt n seed ++ dropThrough n seed = seed := by
  unfold takeBefore memberAt dropThrough
  generalize placeOf n seed.length = place
  by_cases hneg : place < 0
  · have hstart : (place + 1).toNat = 0 := by omega
    have hstop : place.toNat = 0 := by omega
    simp [hneg, hstart, hstop]
  · have hnext : (place + 1).toNat = place.toNat + 1 := by omega
    rw [if_neg hneg, hnext]
    by_cases hlt : place.toNat < seed.length
    · rw [List.getElem?_eq_getElem hlt, Option.toList_some, List.append_assoc,
        List.singleton_append, ← List.drop_eq_getElem_cons hlt, List.take_append_drop]
    · rw [List.getElem?_eq_none (by omega), List.drop_eq_nil_of_le (by omega),
        List.take_of_length_le (by omega)]
      simp

lemma memberAt_zero (seed : List NodeId) : memberAt 0 seed = seed.take 1 := by
  cases seed <;> rfl

lemma memberAt_neg_one (seed : List NodeId) :
    memberAt (-1) seed = seed.drop (seed.length - 1) := by
  unfold memberAt placeOf
  cases hlength : seed.length with
  | zero => simp [List.length_eq_zero_iff.mp hlength]
  | succ length =>
    have hplace : ((-1 : Int) + (length + 1 : Nat)) = length := by omega
    have hlt : length < seed.length := by omega
    rw [if_pos (show (-1 : Int) < 0 by decide), hplace, Nat.add_sub_cancel,
      List.drop_eq_getElem_cons hlt, List.drop_eq_nil_of_le (by omega)]
    simp [List.getElem?_eq_getElem hlt]

namespace Positional

lemma fitSigned?_eq_some {n : Int} (hlow : minSigned ≤ n) (hhigh : n ≤ maxSigned) :
    fitSigned? n = some n :=
  if_pos ⟨hlow, hhigh⟩

lemma fitPlace?_eq_some {n : Int} (h : 0 ≤ n) : fitPlace? n = some n.toNat := if_pos h

/-- The addition that counts from the end never has to stop at an end of the range. -/
theorem fromEitherEnd_eq {n : Int} {length : Nat} (hlow : minSigned ≤ n)
    (hlength : (length : Int) ≤ maxSigned) : fromEitherEnd n length = placeOf n length := by
  unfold fromEitherEnd placeOf saturated
  unfold minSigned at hlow ⊢
  unfold maxSigned at hlength ⊢
  split <;> omega

variable {n : Int} {seed : List NodeId} (hlow : minSigned ≤ n)
  (hlength : (seed.length : Int) ≤ maxSigned)
include hlow hlength

lemma places?_eq : ∃ places, (eq n).places? seed.length = some places ∧
    (∀ i ∈ places, i < seed.length) ∧ pick seed places = memberAt n seed := by
  have hfit := fitSigned?_eq_some (Int.le_trans (by decide) (Int.natCast_nonneg _)) hlength
  have hplaces : (eq n).places? seed.length =
      if 0 ≤ placeOf n seed.length ∧ placeOf n seed.length < seed.length then
        some [(placeOf n seed.length).toNat]
      else some [] := by
    rw [places?, hfit, Option.bind_eq_bind, Option.bind_some, fromEitherEnd_eq hlow hlength]
    dsimp only
    split
    · rw [fitPlace?_eq_some ‹_ ∧ _›.1]
      rfl
    · rfl
  rw [hplaces]
  generalize hplace : placeOf n seed.length = place
  rw [memberAt, hplace]
  split
  · refine ⟨_, rfl, by simp; omega, ?_⟩
    rw [if_neg (by omega), pick_cons]
    simp [pick]
  · refine ⟨_, rfl, by simp, ?_⟩
    split
    · rfl
    · rw [List.getElem?_eq_none (by omega)]
      rfl

lemma places?_lt : ∃ places, (lt n).places? seed.length = some places ∧
    (∀ i ∈ places, i < seed.length) ∧ pick seed places = takeBefore n seed := by
  have hfit := fitSigned?_eq_some (Int.le_trans (by decide) (Int.natCast_nonneg _)) hlength
  rw [places?, hfit, Option.bind_eq_bind, Option.bind_some, fromEitherEnd_eq hlow hlength]
  dsimp only
  rw [fitPlace?_eq_some (by omega)]
  refine ⟨_, rfl, fun i hi => ?_, ?_⟩
  · rw [List.mem_range'] at hi
    unfold placeOf at hi
    obtain ⟨k, hk, rfl⟩ := hi
    split at hk <;> omega
  · rw [pick_range', List.drop_zero, takeBefore, List.take_eq_take_iff]
    unfold placeOf
    split <;> omega

lemma places?_gt (hhigh : n ≤ maxSigned) : ∃ places, (gt n).places? seed.length = some places ∧
    (∀ i ∈ places, i < seed.length) ∧ pick seed places = dropThrough n seed := by
  have hfit := fitSigned?_eq_some (Int.le_trans (by decide) (Int.natCast_nonneg _)) hlength
  rw [places?, hfit, Option.bind_eq_bind, Option.bind_some, fromEitherEnd_eq hlow hlength,
    fitPlace?_eq_some (by omega)]
  refine ⟨_, rfl, fun i hi => ?_, ?_⟩
  · rw [List.mem_range'] at hi
    obtain ⟨k, hk, rfl⟩ := hi
    omega
  · rw [pick_range', List.take_of_length_le (by simp), dropThrough]
    have hstart : (placeOf n seed.length + 1).toNat =
          (max 0 (min (seed.length : Int) (saturated (placeOf n seed.length + 1)))).toNat ∨
        seed.length ≤ (placeOf n seed.length + 1).toNat ∧ (seed.length : Int) ≤
          (max 0 (min (seed.length : Int) (saturated (placeOf n seed.length + 1)))) := by
      unfold saturated placeOf
      unfold minSigned at hlow ⊢
      unfold maxSigned at hhigh hlength ⊢
      split <;> omega
    obtain heq | ⟨hbeyond, hstart⟩ := hstart
    · rw [heq]
    · rw [List.drop_eq_nil_of_le hbeyond, List.drop_eq_nil_of_le (by omega)]

end Positional

/-- The positional pseudo-class that a token calls, with an index that is a signed 64-bit
numeral. -/
def Token.positional? (t : Token) : Option Positional :=
  match t.value with
  | .pseudo call =>
    let index := call.argument.bind fun argument => signed? (trimSpacing argument.toList)
    match call.name with
    | "first" => some .first
    | "last" => some .last
    | "even" => some .even
    | "odd" => some .odd
    | "eq" => index.map .eq
    | "nth" => index.map .nth
    | "lt" => index.map .lt
    | "gt" => index.map .gt
    | _ => none
  | _ => none

namespace Positional

lemma follow_indexed {nested : String → Compile Compiled} {name : String}
    {choose : Int → List NodeId → List NodeId} {argument : Option String} {n : Int}
    (h : argument.bind (fun argument => signed? (trimSpacing argument.toList)) = some n) :
    Compile.follow nested (indexed name choose argument) =
      pure (.set (.rearrange (choose n))) := by
  obtain ⟨text, rfl, htext⟩ := Option.bind_eq_some_iff.mp h
  rw [indexed, withArgument, htext]
  rfl

lemma simple_factory [PatternLibrary] {nested : String → Compile Compiled} {call : PseudoClass}
    {build : Option String → Recipe} {m : Matcher}
    (hget : Registry.standard.get? call.name = some (.factory build))
    (hfollow : Compile.follow nested (build call.argument) = pure m) :
    Compile.simple .standard nested (.pseudo call) = pure m := by
  rw [Compile.simple, hget]
  exact hfollow

open Registry in
/-- A call of a positional pseudo-class becomes the choice of its places. -/
theorem simple_positional [PatternLibrary] {t : Token} {p : Positional}
    (h : t.positional? = some p) (nested : String → Compile Compiled) :
    Compile.simple .standard nested t.value = pure (.set (.rearrange p.choose)) := by
  obtain ⟨raw, value⟩ := t
  cases value with
  | pseudo call =>
    obtain ⟨name, argument, quoted⟩ := call
    simp only [Token.positional?] at h
    split at h
    · have hget : standard.get? "first" = some (.factory fun _ => choice (·.take 1)) := by
        with_unfolding_all rfl
      obtain rfl := Option.some.inj h
      exact simple_factory hget rfl
    · have hget : standard.get? "last" =
          some (.factory fun _ => choice fun seed => seed.drop (seed.length - 1)) := by
        with_unfolding_all rfl
      obtain rfl := Option.some.inj h
      exact simple_factory hget rfl
    · have hget : standard.get? "even" = some (.factory fun _ => choice evenPlaces) := by
        with_unfolding_all rfl
      obtain rfl := Option.some.inj h
      exact simple_factory hget rfl
    · have hget : standard.get? "odd" =
          some (.factory fun _ => choice fun seed => evenPlaces (seed.drop 1)) := by
        with_unfolding_all rfl
      obtain rfl := Option.some.inj h
      exact simple_factory hget rfl
    · have hget : standard.get? "eq" = some (.factory (indexed "eq" memberAt)) := by
        with_unfolding_all rfl
      obtain ⟨n, hn, rfl⟩ := Option.map_eq_some_iff.mp h
      exact simple_factory hget (follow_indexed hn)
    · have hget : standard.get? "nth" = some (.factory (indexed "nth" memberAt)) := by
        with_unfolding_all rfl
      obtain ⟨n, hn, rfl⟩ := Option.map_eq_some_iff.mp h
      exact simple_factory hget (follow_indexed hn)
    · have hget : standard.get? "lt" = some (.factory (indexed "lt" takeBefore)) := by
        with_unfolding_all rfl
      obtain ⟨n, hn, rfl⟩ := Option.map_eq_some_iff.mp h
      exact simple_factory hget (follow_indexed hn)
    · have hget : standard.get? "gt" = some (.factory (indexed "gt" dropThrough)) := by
        with_unfolding_all rfl
      obtain ⟨n, hn, rfl⟩ := Option.map_eq_some_iff.mp h
      exact simple_factory hget (follow_indexed hn)
    · exact nomatch h
  | _ => exact nomatch h

lemma inRange_of_signed? {text : List Char} {n : Int} (h : signed? text = some n) :
    minSigned ≤ n ∧ n ≤ maxSigned := by
  simpa using (Option.filter_eq_some_iff.mp h).2

lemma inRange_of_positional? {t : Token} {p : Positional} (h : t.positional? = some p) :
    p.InRange := by
  obtain ⟨raw, value⟩ := t
  cases value with
  | pseudo call =>
    obtain ⟨name, argument, quoted⟩ := call
    have hindex : ∀ {make : Int → Positional}, (∀ n, (make n).index? = some n) →
        (argument.bind fun argument => signed? (trimSpacing argument.toList)).map make = some p →
        p.InRange := by
      intro make hmake hp
      obtain ⟨n, hn, rfl⟩ := Option.map_eq_some_iff.mp hp
      obtain ⟨text, -, htext⟩ := Option.bind_eq_some_iff.mp hn
      intro k hk
      rw [hmake n] at hk
      exact Option.some.inj hk ▸ inRange_of_signed? htext
    simp only [Token.positional?] at h
    split at h
    · exact Option.some.inj h ▸ nofun
    · exact Option.some.inj h ▸ nofun
    · exact Option.some.inj h ▸ nofun
    · exact Option.some.inj h ▸ nofun
    · exact hindex (fun _ => rfl) h
    · exact hindex (fun _ => rfl) h
    · exact hindex (fun _ => rfl) h
    · exact hindex (fun _ => rfl) h
    · exact nomatch h
  | _ => exact nomatch h

/-- No number on the way to the places leaves its range, and the places are those that are kept. -/
theorem exists_places {p : Positional} (hp : p.InRange) {seed : List NodeId}
    (hlength : (seed.length : Int) ≤ maxSigned) :
    ∃ places, p.places? seed.length = some places ∧ (∀ i ∈ places, i < seed.length) ∧
      pick seed places = p.choose seed := by
  cases p with
  | first =>
    refine ⟨_, rfl, fun i hi => ?_, ?_⟩
    · simp only [List.mem_range', Nat.one_mul] at hi
      omega
    · rw [pick_range', List.drop_zero, choose, List.take_eq_take_iff]
      omega
  | last =>
    refine ⟨_, rfl, ?_, ?_⟩
    · split
      · simp
      · simp
        omega
    · split
      · simp [pick, choose, List.length_eq_zero_iff.mp ‹_›]
      · change pick seed (List.range' (seed.length - 1) 1) = seed.drop (seed.length - 1)
        rw [pick_range', List.take_of_length_le (by simp; omega)]
  | even =>
    refine ⟨_, rfl, fun i hi => ?_, ?_⟩
    · simp only [List.mem_range'] at hi
      omega
    · rw [pick_range'_two, List.drop_zero, choose,
        List.take_of_length_le (Nat.le_of_eq (length_evenPlaces seed))]
  | odd =>
    refine ⟨_, rfl, fun i hi => ?_, ?_⟩
    · simp only [List.mem_range'] at hi
      omega
    · rw [pick_range'_two, choose, List.take_of_length_le]
      rw [length_evenPlaces, List.length_drop]
      omega
  | eq n | nth n =>
    obtain ⟨hlow, -⟩ := hp n rfl
    exact places?_eq hlow hlength
  | lt n =>
    obtain ⟨hlow, -⟩ := hp n rfl
    exact places?_lt hlow hlength
  | gt n =>
    obtain ⟨hlow, hhigh⟩ := hp n rfl
    exact places?_gt hlow hlength hhigh

lemma choose_nil (p : Positional) : p.choose [] = [] := by
  cases p <;> simp [choose, evenPlaces, takeBefore, dropThrough, memberAt]

/-- Every index in the range can be written down. -/
theorem exists_numeral {n : Int} (hlow : minSigned ≤ n) (hhigh : n ≤ maxSigned) :
    ∃ text : List Char, signed? (trimSpacing text) = some n := by
  have htrim : ∀ text : List Char, (∀ c ∈ text, isSpacing c = false) → trimSpacing text = text := by
    have hdrop : ∀ text : List Char, (∀ c ∈ text, isSpacing c = false) →
        text.dropWhile isSpacing = text := by
      intro text h
      cases text <;> simp_all
    intro text h
    rw [trimSpacing, hdrop text h, hdrop _ (by simpa using h), List.reverse_reverse]
  have hspacing : ∀ c ∈ Nat.toDigits 10 n.natAbs, isSpacing c = false := by
    intro c hc
    have hrange := Written.range_of_isDigit (Written.isDigit_toDigits c hc)
    simp only [isSpacing, Bool.or_eq_false_iff, Bool.and_eq_false_iff, decide_eq_false_iff_not,
      beq_eq_false_iff_ne]
    omega
  have hfilter : (some n).filter (fun n => minSigned ≤ n && n ≤ maxSigned) = some n := by
    simp [hlow, hhigh]
  by_cases hneg : n < 0
  · refine ⟨'-' :: Nat.toDigits 10 n.natAbs, ?_⟩
    have hvalue : -(n.natAbs : Int) = n := by omega
    rw [htrim _ (by simpa using ⟨by decide, hspacing⟩), signed?, Written.decimal?_toDigits]
    exact (congrArg (fun k => (some k).filter _) hvalue).trans hfilter
  · refine ⟨Nat.toDigits 10 n.natAbs, ?_⟩
    obtain ⟨d, digits, heq, hd⟩ := Written.exists_toDigits n.natAbs
    obtain ⟨-, -, hminus, hplus, -⟩ := Written.digit_facts hd
    have hvalue : (n.natAbs : Int) = n := by omega
    rw [htrim _ hspacing, heq, signed?]
    · rw [← heq, Written.decimal?_toDigits]
      exact (congrArg (fun k => (some k).filter _) hvalue).trans hfilter
    · exact fun _ h => hminus (List.cons.inj h).1
    · exact fun _ h => hplus (List.cons.inj h).1

lemma exists_call (name : String) {make : Int → Positional}
    (hname : ∀ argument, Token.positional? ⟨"", .pseudo ⟨name, argument, false⟩⟩ =
      (argument.bind fun argument => signed? (trimSpacing argument.toList)).map make)
    {n : Int} (h : minSigned ≤ n ∧ n ≤ maxSigned) :
    ∃ t : Token, t.positional? = some (make n) := by
  obtain ⟨text, htext⟩ := exists_numeral h.1 h.2
  refine ⟨_, (hname (some (String.ofList text))).trans ?_⟩
  rw [Option.bind_some, String.toList_ofList, htext]
  rfl

/-- Every index in the range stands in some call. -/
theorem exists_token {p : Positional} (hp : p.InRange) : ∃ t : Token, t.positional? = some p := by
  cases p with
  | first => exact ⟨⟨"", .pseudo ⟨"first", none, false⟩⟩, rfl⟩
  | last => exact ⟨⟨"", .pseudo ⟨"last", none, false⟩⟩, rfl⟩
  | even => exact ⟨⟨"", .pseudo ⟨"even", none, false⟩⟩, rfl⟩
  | odd => exact ⟨⟨"", .pseudo ⟨"odd", none, false⟩⟩, rfl⟩
  | eq n => exact exists_call "eq" (fun _ => rfl) (hp n rfl)
  | nth n => exact exists_call "nth" (fun _ => rfl) (hp n rfl)
  | lt n => exact exists_call "lt" (fun _ => rfl) (hp n rfl)
  | gt n => exact exists_call "gt" (fun _ => rfl) (hp n rfl)

end Positional

end TreeQuery
