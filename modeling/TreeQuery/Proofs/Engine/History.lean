import TreeQuery.Proofs.Tree.Orderly
import TreeQuery.Proofs.Engine.World

/-!
# Engines without history

What an engine has answered before, which selectors it has compiled and what its caches have dropped
does not show in an answer, and neither do pages that have changed since they were asked about.
-/

namespace TreeQuery

namespace World

/-- A question is answered after any events as a new engine answers it. -/
theorem ask_after_eq_ask_new [PatternLibrary] {settings : Settings} {e : Engine}
    (hnew : Engine.new settings = .ok e) (events : List Event) {p : HookedPage}
    (hp : p ∈ ((start e).after events).pages) (query : Query)
    (hold : (query.ask p.host ((start e).after events).engine).2.caches.named < UInt32.size)
    (hfresh : (query.ask p.host e).2.caches.named < UInt32.size) :
    (query.ask p.host ((start e).after events).engine).1 = (query.ask p.host e).1 := by
  have hadds : (Engine.ledger (fun _ => none) .standard settings).Adds (query.ask p.host) :=
    Engine.ask_adds p.host query
  have hstart := sound_start (Engine.sound_new hnew fun _ => none)
  obtain ⟨A, N, -, hsound⟩ := hstart.after events (Nat.lt_of_le_of_lt (hadds _) hold)
  have hknown : p.host.Known A := by simpa [Host.Known] using hsound.known p hp
  have hforest : p.host.document.IsForest := by simpa using hsound.forests p hp
  obtain ⟨_, _, _, hagree⟩ := Engine.ask_follows Registry.standard_steady
    (Engine.sound_new hnew A) hforest p.findsElements_host hknown query hfresh
  rw [hsound.ask hp query hold]
  exact hagree.eq.symm

section Sample

attribute [local instance] PatternLibrary.standard

/-- A run in which pages come and change, a query fails and the caches are emptied. -/
def sampleRun : List Event :=
  [.create false, .withFeatures 0 .none, .mutate 0 Document.sample.nodes Document.isForest_sample,
    .ask 0 (.select "ul li" 0), .clone 0, .ask 1 (.select "li:bogus" 0), .compile "li ~ li",
    .selectCompiled 1 0 0, .mutate 0 (Document.empty false).nodes Document.isForest_empty,
    .clearCaches, .ask 0 (.filter "li" [1])]

def sampleWorld : World := (start (.fresh .standard)).after sampleRun

lemma one_lt_pages_sampleWorld : 1 < sampleWorld.pages.length := by decide +kernel

/-- The clone of the first page, made before that page was emptied. -/
def samplePage : HookedPage := sampleWorld.pages.get ⟨1, one_lt_pages_sampleWorld⟩

def sampleQuery : Query := .select ".a > li ~ #x" 0

theorem ask_after_eq_ask_new_sample :
    Engine.new .standard = .ok (.fresh .standard) ∧ samplePage ∈ sampleWorld.pages ∧
      (sampleQuery.ask samplePage.host sampleWorld.engine).2.caches.named < UInt32.size ∧
      (sampleQuery.ask samplePage.host (.fresh .standard)).2.caches.named < UInt32.size ∧
      (sampleQuery.ask samplePage.host sampleWorld.engine).1.toOption = some (.nodes [3]) ∧
      (sampleQuery.ask samplePage.host sampleWorld.engine).1 =
        (sampleQuery.ask samplePage.host (.fresh .standard)).1 := by
  have hpage : samplePage ∈ sampleWorld.pages := List.get_mem _ _
  have hanswers :
      (sampleQuery.ask samplePage.host sampleWorld.engine).2.caches.named < UInt32.size ∧
      (sampleQuery.ask samplePage.host (.fresh .standard)).2.caches.named < UInt32.size ∧
      (sampleQuery.ask samplePage.host sampleWorld.engine).1.toOption = some (.nodes [3]) := by
    decide +kernel
  obtain ⟨hold, hfresh, hanswer⟩ := hanswers
  exact ⟨Engine.new_standard, hpage, hold, hfresh, hanswer,
    ask_after_eq_ask_new Engine.new_standard sampleRun hpage sampleQuery hold hfresh⟩

end Sample

end World

end TreeQuery
