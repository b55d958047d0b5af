import Mathlib.Data.List.Chain
import TreeQuery.Proofs.Selector.Arguments
import TreeQuery.Proofs.Selector.Tails.Trims

/-!
# Reading what a seed plan leaves

A seed plan leaves the texts of the tokens that are not looked up, one after another. They are read
as these tokens again, unless the token between them held the reading of an argument in front of it
apart from what stands behind it.
-/

namespace TreeQuery

namespace Clause

variable {ts us : Clause}

/-- Two combinators never stand side by side in a clause that is accepted. -/
theorem doubledCombinator?_eq_none_iff (ts : Clause) :
    ts.doubledCombinator? = none ↔
      List.IsChain (fun a b => (a && b) = false) (ts.map Token.isCombinator) := by
  fun_induction doubledCombinator? ts with
  | case1 t u rest h =>
    simp only [List.map_cons, List.isChain_cons_cons, h]
    simp
  | case2 t u rest h ih =>
    simp only [List.map_cons, List.isChain_cons_cons, ih, Bool.eq_false_iff.mpr h, true_and]
  | case3 ts h =>
    match ts with
    | [] => simp
    | [t] => simp
    | t :: u :: rest => exact absurd rfl (h t u rest)

lemma check_eq_ok_iff (ts : Clause) :
    ts.check = .ok () ↔ ts ≠ [] ∧ ts.getLast?.any Token.isCombinator = false ∧
      List.IsChain (fun a b => (a && b) = false) (ts.map Token.isCombinator) := by
  rw [← doubledCombinator?_eq_none_iff, check]
  cases hlast : ts.getLast? with
  | none =>
    rw [List.getLast?_eq_none_iff] at hlast
    simp [hlast]
  | some last =>
    have hne : ts ≠ [] := by
      rintro rfl
      exact nomatch hlast
    cases hcombinator : last.isCombinator with
    | true => simp [hcombinator]
    | false =>
      cases ts.doubledCombinator? <;> simp [hcombinator, hne]

/-- Simple tests at the end of an accepted clause may be exchanged for other ones. -/
theorem check_exchange (h : Clause.check (ts ++ us) = .ok ()) {vs : Clause} (hne : vs ≠ [])
    (hvs : ∀ v ∈ vs, v.isCombinator = false) : Clause.check (ts ++ vs) = .ok () := by
  obtain ⟨-, -, hchain⟩ := (check_eq_ok_iff _).mp h
  have hflags : vs.map Token.isCombinator = List.replicate vs.length false := by
    rw [← List.map_const', List.map_congr_left hvs]
  refine (check_eq_ok_iff _).mpr ⟨by simp [hne], ?_, ?_⟩
  · rw [List.getLast?_append_of_ne_nil _ hne, List.getLast?_eq_some_getLast hne]
    exact hvs _ (List.getLast_mem hne)
  · rw [List.map_append] at hchain ⊢
    refine hchain.left_of_append.append ?_ fun a _ b hb => ?_
    · rw [hflags]
      exact List.isChain_replicate_of_rel _ rfl
    · rw [hflags] at hb
      have hfalse := List.eq_of_mem_replicate (List.mem_of_mem_head? hb)
      rw [hfalse, Bool.and_false]

/-- Whether a clause is accepted depends on which of its tokens are combinators. -/
theorem check_of_flags (h : us.map Token.isCombinator = ts.map Token.isCombinator)
    (hcheck : ts.check = .ok ()) : us.check = .ok () := by
  have hlast : ∀ ts : Clause, ts.getLast?.any Token.isCombinator =
      (ts.map Token.isCombinator).getLast?.any id := by
    intro ts
    rw [List.getLast?_map, Option.any_map]
    rfl
  obtain ⟨hne, hend, hchain⟩ := (check_eq_ok_iff _).mp hcheck
  refine (check_eq_ok_iff _).mpr ⟨?_, by rw [hlast, h, ← hlast, hend], by rwa [h]⟩
  rintro rfl
  exact hne (List.map_eq_nil_iff.mp h.symm)

lemma check_congr (h : us.map Token.value = ts.map Token.value) (hcheck : ts.check = .ok ()) :
    us.check = .ok () := by
  have hflag : ∀ ts : Clause, ts.map Token.isCombinator =
      (ts.map Token.value).map fun value => Token.isCombinator ⟨"", value⟩ := by
    intro ts
    rw [List.map_map]
    rfl
  exact check_of_flags (by rw [hflag, hflag, h]) hcheck

end Clause

namespace SelectorList

variable {text : String} {list : SelectorList} {clause : Clause}

/-- A text of one clause that is accepted is read to its end. -/
theorem scan_of_parse (h : SelectorList.parse text = .ok list)
    (hclauses : list.clauses = [clause]) :
    scan false (trimBlanks text.toList) = .whole clause ∧ clause.check = .ok () := by
  obtain ⟨hscan, -, hcheck⟩ := parse_eq_ok h
  rw [hclauses] at hscan hcheck
  have hread : (scan false (trimBlanks text.toList)).rest = [] ∧
      (scan false (trimBlanks text.toList)).fault = none := by
    simp only [SelectorList.parse, bind, Except.bind, throw, throwThe, MonadExceptOf.throw] at h
    split at h
    · cases h
    · split at h
      · cases h
      · rename_i hfault
        split at h
        · rename_i hrest
          exact ⟨List.isEmpty_iff.mp hrest, Option.eq_none_iff_forall_ne_some.mpr hfault⟩
        · cases h
  generalize scan false (trimBlanks text.toList) = found at hscan hread ⊢
  obtain ⟨first, later, rest, fault⟩ := found
  obtain ⟨rfl, rfl⟩ := List.cons.inj hscan
  obtain ⟨rfl, rfl⟩ := hread
  change (do Clause.check clause; List.forM [] Clause.check) = _ at hcheck
  cases hclause : clause.check with
  | ok => exact ⟨rfl, rfl⟩
  | error fault =>
    rw [hclause] at hcheck
    cases hcheck

lemma parse_of_scan (h : scan false (trimBlanks text.toList) = .whole clause)
    (hne : trimBlanks text.toList ≠ []) (hcheck : clause.check = .ok ()) :
    SelectorList.parse text = .ok ⟨String.ofList (trimBlanks text.toList), [clause]⟩ := by
  have hempty : (trimBlanks text.toList).isEmpty = false := by simpa using hne
  have hforM : List.forM [clause] Clause.check = .ok () := by
    change (do Clause.check clause; List.forM [] Clause.check) = _
    rw [hcheck]
    rfl
  have hclauses : (Scan.whole clause).clauses = [clause] := rfl
  simp only [SelectorList.parse, hempty, h, hclauses, hforM]
  rfl

end SelectorList

/-- Whether the tokens around a token of a compound are read without it as they are read with it. -/
structure Token.Detachable (before after : Clause) (t : Token) : Prop where
  /-- No argument in front of the token ends within it. -/
  unclosed : ')' ∉ t.raw.toList
  /-- Where tokens follow, nothing in the token is taken for a pseudo-class, and it is on one line.
  -/
  inline : after ≠ [] → ':' ∉ t.raw.toList ∧ '\n' ∉ t.raw.toList
  /-- A tag that is taken out starts its compound. -/
  leading : ∀ name, t.value = .tag name → before = []

variable {text : List Char} {earlier before after : Clause} {t : Token} {seed : Seed}

lemma Seed.value_of_ofToken (h : Seed.ofToken t = some seed) :
    ((∃ name, t.value = .id name) ∨ ∃ name, t.value = .className name) ∨
      ∃ name, t.value = .tag name ∧ name ≠ "*" := by
  rw [Seed.ofToken] at h
  split at h
  · rename_i name hvalue
    exact .inl (.inl ⟨name, hvalue⟩)
  · rename_i name hvalue
    exact .inl (.inr ⟨name, hvalue⟩)
  · rename_i name hvalue
    split at h
    · cases h
    · rename_i hstar
      exact .inr ⟨name, hvalue, by simpa using hstar⟩
  · cases h

lemma Token.exists_combinator (h : t.isCombinator = true) :
    ∃ sign, t.value = .combinator sign := by
  rw [Token.isCombinator, Token.combinator?] at h
  split at h
  · exact ⟨_, by assumption⟩
  · cases h

/-- What is left of a clause is read from its own text. -/
theorem scan_leftover (h : scan false text = .whole (earlier ++ (before ++ t :: after)))
    (hsimple : ∀ u ∈ before ++ t :: after, u.isCombinator = false)
    (hearlier : ∀ u ∈ earlier.getLast?, u.isCombinator = true) (ht : Seed.ofToken t = some seed)
    (hdetach : t.Detachable before after) :
    scan false (Clause.chars
        (earlier ++ if before ++ after = [] then [Token.universal] else before ++ after)) =
      .whole (earlier ++ if before ++ after = [] then [Token.universal] else before ++ after) := by
  have hafter : ∀ u ∈ after, u.isCombinator = false := fun u hu =>
    hsimple u (List.mem_append_right _ (List.mem_cons_of_mem _ hu))
  obtain hfilter | ⟨name, htag, hstar⟩ := Seed.value_of_ofToken ht
  · rw [← List.append_assoc] at h
    obtain ⟨hleft, huniversal⟩ :=
      scan_without_filter h hafter hfilter hdetach.unclosed hdetach.inline
    split
    · rename_i hnil
      obtain ⟨rfl, rfl⟩ := List.append_eq_nil_iff.mp hnil
      rw [List.append_nil] at huniversal
      exact huniversal rfl
    · rwa [List.append_assoc] at hleft
  · obtain rfl := hdetach.leading name htag
    obtain rfl | ⟨front, k, rfl⟩ := List.eq_nil_or_concat earlier
    · -- The tag is the first token of the text.
      have hrest := (scan_whole_cons h).2.2
      split
      · exact scan_universal false
      · exact scan_whole_any hrest hafter false
    · rw [List.concat_eq_append] at h hearlier ⊢
      obtain ⟨sign, hsign⟩ := Token.exists_combinator (hearlier k (by simp))
      rw [List.append_assoc] at h
      obtain ⟨hleft, huniversal⟩ :=
        scan_without_tag h hafter hsign htag hstar hdetach.unclosed hdetach.inline
      rw [List.append_assoc]
      split
      · rename_i hnil
        exact huniversal hnil
      · exact hleft

namespace SelectorList

variable {query : String} {list : SelectorList} {features : Features} {plan : SeedPlan}

/-- A seed plan cuts the last token with an index out of the last compound. What is left is read as
the other tokens, with `*` for a compound of one token, if the token can be detached from them. -/
theorem parse_reduced (hparse : SelectorList.parse query = .ok list)
    (hplan : list.seedPlan features = some plan) :
    ∃ earlier before t after, list.clauses = [earlier ++ (before ++ t :: after)] ∧
      (∀ u ∈ earlier.getLast?, u.isCombinator = true) ∧
      (∀ u ∈ before ++ t :: after, u.isCombinator = false) ∧
      Seed.ofToken t = some plan.seed ∧ plan.seed.isIndexed features = true ∧
      (∀ u ∈ after, ∀ seed, Seed.ofToken u = some seed → seed.isIndexed features = false) ∧
      (t.Detachable before after → ∃ again, SelectorList.parse plan.reduced = .ok again ∧
        again.clauses.map (·.map Token.value) =
          [(earlier ++ if before ++ after = [] then [Token.universal]
            else before ++ after).map Token.value]) := by
  obtain ⟨earlier, before, t, after, hclauses, hsimple, hhead, ht, hindexed, hearlier, hafter, left,
    -, hreduced, rfl⟩ := seedPlan_split hplan
  refine ⟨earlier, before, t, after, hclauses, hearlier, hsimple, ht, hindexed, hafter, ?_⟩
  intro hdetach
  obtain ⟨hscan, hcheck⟩ := scan_of_parse hparse hclauses
  have hread := scan_leftover hscan hsimple hearlier ht hdetach
  have hrest : ∀ u ∈ (if before ++ after = [] then [Token.universal] else before ++ after),
      u.isCombinator = false := by
    intro u hu
    split at hu
    · rw [List.mem_singleton.mp hu]
      rfl
    · apply hsimple
      obtain hu | hu := List.mem_append.mp hu
      · exact List.mem_append_left _ hu
      · exact List.mem_append_right _ (List.mem_cons_of_mem _ hu)
  have hne : (if before ++ after = [] then [Token.universal] else before ++ after) ≠ [] := by
    split
    · exact List.cons_ne_nil _ _
    · assumption
  rw [hreduced]
  generalize (if before ++ after = [] then [Token.universal] else before ++ after) = rest at *
  have hcheck' := Clause.check_exchange hcheck hne hrest
  obtain ⟨-, hend, -⟩ := (Clause.check_eq_ok_iff _).mp hcheck'
  have hfirst : (earlier ++ rest).head?.any Token.isCombinator = false := by
    cases earlier with
    | nil =>
      obtain ⟨u, rest, rfl⟩ := List.exists_cons_of_ne_nil hne
      exact hrest u List.mem_cons_self
    | cons u earlier => exact hhead
  obtain ⟨hne', us, hus, hvalues⟩ := scan_trimBlanks hread (by simp [hne]) hfirst hend
  rw [← Clause.toList_text] at hne' hus
  have hagain := parse_of_scan hus hne' (Clause.check_congr hvalues hcheck')
  exact ⟨_, hagain, congrArg (fun ts => [ts]) hvalues⟩

section Sample

/-- A query with selectors in an argument in front of an id. -/
def cutList : SelectorList :=
  ⟨"ul :not(:is(p))#x.c", [[⟨"ul", .tag "ul"⟩, ⟨" ", .combinator .descendant⟩,
    ⟨":not(:is(p))", .pseudo ⟨"not", some ":is(p)", false⟩⟩, ⟨"#x", .id "x"⟩,
    ⟨".c", .className "c"⟩]]⟩

def cutFeatures : Features := { Features.none with idIndex := true }

theorem parse_reduced_sample :
    SelectorList.parse "ul :not(:is(p))#x.c" = .ok cutList ∧
      cutList.seedPlan cutFeatures = some ⟨.id "x", "ul :not(:is(p)).c"⟩ ∧
      ∃ earlier before after,
        cutList.clauses = [earlier ++ (before ++ ⟨"#x", .id "x"⟩ :: after)] ∧
        ∃ again, SelectorList.parse "ul :not(:is(p)).c" = .ok again ∧
          again.clauses.map (·.map Token.value) =
            [(earlier ++ if before ++ after = [] then [Token.universal]
              else before ++ after).map Token.value] := by
  have hparse : SelectorList.parse "ul :not(:is(p))#x.c" = .ok cutList := by decide +kernel
  have hplan : cutList.seedPlan cutFeatures = some ⟨.id "x", "ul :not(:is(p)).c"⟩ := by
    decide +kernel
  obtain ⟨earlier, before, t, after, hclauses, -, -, ht, -, -, hread⟩ := parse_reduced hparse hplan
  have hmem : t ∈ cutList.clauses.flatten := by simp [hclauses]
  have honly : ∀ u ∈ cutList.clauses.flatten, Seed.ofToken u = some (.id "x") →
      u = ⟨"#x", .id "x"⟩ := by decide +kernel
  obtain rfl := honly t hmem ht
  have hdetach : Token.Detachable before after ⟨"#x", .id "x"⟩ :=
    ⟨by decide, fun _ => by decide, nofun⟩
  exact ⟨hparse, hplan, earlier, before, after, hclauses, hread hdetach⟩

end Sample

end SelectorList

end TreeQuery
