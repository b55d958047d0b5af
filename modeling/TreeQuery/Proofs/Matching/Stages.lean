import TreeQuery.Proofs.Matching.Agreement

/-!
# Published stages

A plan publishes the members of each stage for the tests of the next one and withdraws them in the
end. What other plans have published stays as it was.
-/

namespace TreeQuery

lemma Document.isElement_of_descendantElements {d : Document} {scope n : NodeId}
    (h : n ∈ d.descendantElements scope) : d.isElement n = true :=
  (List.mem_filter.mp h).2

lemma Scope.isElement_of_population {s : Scope} {siblingLed : Bool} {pool : List NodeId}
    {n : NodeId} (h : n ∈ s.population siblingLed pool) : s.document.isElement n = true := by
  unfold population at h
  dsimp only at h
  split at h
  · exact Document.isElement_of_descendantElements h
  · obtain ⟨root, _, hn⟩ := List.mem_flatMap.mp h
    obtain hn | hn := List.mem_append.mp hn
    · split at hn
      · rename_i hroot
        rw [List.mem_singleton.mp hn]
        exact hroot
      · simp at hn
    · exact Document.isElement_of_descendantElements hn

lemma stageMembers_concat (s : Scope) (population : List NodeId) (stage : Stage) :
    ∀ (stages : List Stage) (previous : NodeId → Bool),
      stageMembers (stages ++ [stage]) previous s population =
        fun n => (stage.result (stageMembers stages previous s population) s population).contains n
  | [], _ => by
    rw [List.nil_append, stageMembers, stageMembers, stageMembers]
  | first :: rest, previous => by
    rw [List.cons_append, stageMembers, stageMembers]
    exact stageMembers_concat s population stage rest _

/-- The members of a stage of a plan that bears its name. -/
theorem Naming.members_lastStage {N : Naming} {f : Frame} {id : MatcherId} {stages : List Stage}
    {last : Stage} {siblingLed : Bool}
    (hid : N id = some (.plan (.mk id stages last siblingLed))) (count : Nat) :
    N.members f (lastStage id count) =
      stageMembers (stages.take count) (fun _ => false) f.scope
        (f.scope.population siblingLed f.pool) := by
  cases count with
  | zero => rw [List.take_zero, stageMembers]; rfl
  | succ count => simp only [lastStage, members, hid]

namespace Memo

variable {N : Naming} {f : Frame} {m : Memo} {id : MatcherId} {plan : Plan}

lemma inAnchor_setAnchor_self (m : Memo) (id : MatcherId) (index : Nat) (members : List NodeId)
    (n : NodeId) : (m.setAnchor id index members).inAnchor id index n = members.contains n := by
  simp [inAnchor, setAnchor]

lemma find?_filter_of_implies {α : Type} {p q : α → Bool} (h : ∀ x, q x = true → p x = true)
    (xs : List α) : (xs.filter p).find? q = xs.find? q := by
  rw [List.find?_filter]
  congr 1
  funext x
  cases hq : q x with
  | true => simp [h x hq]
  | false => simp

lemma inAnchor_setAnchor_of_ne (m : Memo) {id id' : MatcherId} (hne : id' ≠ id)
    (index index' : Nat) (members : List NodeId) (n : NodeId) :
    (m.setAnchor id index members).inAnchor id' index' n = m.inAnchor id' index' n := by
  have hpair : (id, index) ≠ (id', index') := fun h => hne (Prod.mk.inj h).1.symm
  simp only [inAnchor, setAnchor, List.find?_cons]
  rw [decide_eq_false hpair, find?_filter_of_implies]
  intro entry hentry
  simp only [decide_eq_true_eq] at hentry ⊢
  exact fun h => hpair (h.symm.trans hentry)

lemma inAnchor_clearAnchors_of_ne (m : Memo) {id id' : MatcherId} (hne : id' ≠ id)
    (index : Nat) (n : NodeId) :
    (m.clearAnchors id).inAnchor id' index n = m.inAnchor id' index n := by
  simp only [inAnchor, clearAnchors]
  rw [find?_filter_of_implies]
  intro entry hentry
  simp only [decide_eq_true_eq] at hentry ⊢
  rw [hentry]
  exact hne

lemma id_ne_of_lt {id' : MatcherId} {plan' : Plan} (hid : N id = some (.plan plan))
    (hid' : N id' = some (.plan plan')) (hlt : sizeOf plan < sizeOf plan') : id' ≠ id := by
  rintro rfl
  rw [hid] at hid'
  obtain rfl := Named.plan.inj (Option.some.inj hid')
  exact Nat.lt_irrefl _ hlt

lemma Evolves.setAnchor (hid : N id = some (.plan plan)) (m : Memo) (index : Nat)
    (members : List NodeId) : m.Evolves N (sizeOf plan) (m.setAnchor id index members) where
  size_le := Nat.le_refl _
  cells _ := rfl
  stamps h _ := h
  anchors hid' hlt index' n :=
    m.inAnchor_setAnchor_of_ne (id_ne_of_lt hid hid' hlt) index index' members n

lemma Evolves.clearAnchors (hid : N id = some (.plan plan)) (m : Memo) :
    m.Evolves N (sizeOf plan) (m.clearAnchors id) where
  size_le := Nat.le_refl _
  cells _ := rfl
  stamps h _ := h
  anchors hid' hlt index n := m.inAnchor_clearAnchors_of_ne (id_ne_of_lt hid hid' hlt) index n

/-- Publishing the members of a stage readies the memo for the tests of the next one. -/
theorem Ready.setAnchor {bound : Nat} {previous : Option StageName}
    (h : m.Ready N f bound previous) (hid : N id = some (.plan plan)) (hlt : bound < sizeOf plan)
    {index : Nat} {members : List NodeId}
    (hmembers : N.members f (some (id, index)) = fun n => members.contains n) :
    (m.setAnchor id index members).Ready N f bound (some (id, index)) where
  valid := ⟨h.valid.stamps_le, h.valid.cells_lt, h.valid.ranks_le⟩
  agrees := ⟨h.agrees.outcome, h.agrees.rank⟩
  published heq := by
    obtain ⟨rfl, rfl⟩ := Prod.mk.inj (Option.some.inj heq)
    refine ⟨plan, hid, hlt, fun n => ?_⟩
    rw [inAnchor_setAnchor_self, hmembers]

lemma Ready.clearAnchors {bound : Nat} {previous : Option StageName}
    (h : m.Ready N f bound previous) (id : MatcherId) :
    (m.clearAnchors id).Ready N f bound none where
  valid := ⟨h.valid.stamps_le, h.valid.cells_lt, h.valid.ranks_le⟩
  agrees := ⟨h.agrees.outcome, h.agrees.rank⟩
  published := by simp

end Memo

end TreeQuery
