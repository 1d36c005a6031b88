import TableTotals.Workbench
import TableTotals.Proofs.Calls

/-!
What the commands of a workbench leave alone.

Some commands write to the tables of a store (`Command.mutation?`), some work on a cursor
(`Command.cursor?`), and no other command touches a store or a cursor (`Workbench.fixtures_step`):
whatever an engine or an executor is told to do, every cursor that it opens is closed again. So
the tables of a store are what the writes among the commands make of them
(`Workbench.tables_run`), and a cursor is left alone by all commands but its own
(`Workbench.cursor_step`).
-/

namespace TableTotals

/-- A write to the tables of a store, past any feed. -/
inductive Mutation where
  | create (table : String) (layout : Shape)
  | drop (table : String)
  | put (table : String) (key : List UInt8) (entry : Entry)
  | putBytes (table : String) (key bytes : List UInt8)
  | delete (table : String) (key : List UInt8)
  deriving DecidableEq

namespace Metadata

def mutate (s : Metadata) : Mutation → Metadata
  | .create table layout => s.create table layout
  | .drop table => s.drop table
  | .put table key entry => (s.put table key entry).1
  | .putBytes table key bytes => (s.putBytes table key bytes).1
  | .delete table key => (s.delete table key).1

def mutateAll (s : Metadata) (ms : List Mutation) : Metadata := ms.foldl mutate s

/-- What a write makes of tables has nothing to do with the cursors that are open. -/
lemma tables_mutate_congr {s s' : Metadata} (h : s'.tables = s.tables) (m : Mutation) :
    (s'.mutate m).tables = (s.mutate m).tables := by
  have htable : ∀ name, s'.table name = s.table name := fun name => by simp only [table, h]
  cases m with
  | create name layout =>
    simp only [mutate, create, h]
    split <;> simp only [h]
  | drop name => simp only [mutate, drop, h]
  | put name key entry =>
    simp only [mutate, put, htable]
    split
    · exact h
    · split
      · exact h
      · simp only [withCells, h]
  | putBytes name key bytes =>
    simp only [mutate, putBytes, htable]
    split
    · exact h
    · simp only [withCells, h]
  | delete name key =>
    simp only [mutate, delete, htable]
    split
    · exact h
    · simp only [withCells, h]

lemma tables_mutateAll_congr {s s' : Metadata} (h : s'.tables = s.tables) (ms : List Mutation) :
    (s'.mutateAll ms).tables = (s.mutateAll ms).tables := by
  induction ms generalizing s s' with
  | nil => exact h
  | cons m rest ih => exact ih (tables_mutate_congr h m)

end Metadata

namespace Command

/-- The write that a command makes, and the store that it goes to. -/
def mutation? : Command → Option (Shelf × Mutation)
  | .create shelf name shape => some (shelf, .create name shape)
  | .drop shelf name => some (shelf, .drop name)
  | .put shelf name key entry => some (shelf, .put name key entry)
  | .putBytes shelf name key bytes => some (shelf, .putBytes name key bytes)
  | .delete shelf name key => some (shelf, .delete name key)
  | .feedPut name key entry => some (.main, .put name key entry)
  | .feedDelete name key => some (.main, .delete name key)
  | _ => none

/-- The cursor that a command works on. -/
def cursor? : Command → Option String
  | .openCursor _ name | .next name | .rewind name | .closeCursor name | .summarize name _ _ =>
    some name
  | _ => none

/-- The write that a command makes to one store. -/
def mutationOf (shelf : Shelf) (c : Command) : Option Mutation :=
  c.mutation?.bind fun x => if x.1 = shelf then some x.2 else none

end Command

/-! ### Engines, executors and feeds -/

namespace Feed

@[simp] lemma store_put (f : Feed) (s : Metadata) (name : String) (key : List UInt8)
    (entry : Entry) : (f.put s name key entry).1.2 = (s.put name key entry).1 := by
  unfold put
  rcases s.put name key entry with ⟨s', failure | old⟩ <;> rfl

@[simp] lemma store_delete (f : Feed) (s : Metadata) (name : String) (key : List UInt8) :
    (f.delete s name key).1.2 = (s.delete name key).1 := by
  unfold delete
  rcases s.delete name key with ⟨s', failure | gone⟩ <;> rfl

end Feed

namespace Executor

lemma source_turn (x : Executor) (site : Site) : (x.turn site).2.source = site.source := by
  unfold turn
  split
  · exact (Engine.attempt_source rfl).1
  · rfl

lemma source_turns (n : Nat) (s : Executor × Site) : (drain.turns n s).2.source = s.2.source := by
  induction n generalizing s with
  | zero => rfl
  | succ n ih => exact (ih _).trans (s.1.source_turn s.2)

lemma source_drain (x : Executor) (site : Site) : (x.drain site).2.source = site.source :=
  source_turns _ _

end Executor

namespace Workbench

variable {b b' : Workbench} {c : Command} {r : Except Failure Answer}

/-- The stores and the cursors of a bench. -/
def fixtures (b : Workbench) : Metadata × Metadata × SortedMap String (Shelf × Cursor) :=
  (b.main, b.spare, b.cursors)

lemma store_of_fixtures (h : b'.fixtures = b.fixtures) (shelf : Shelf) :
    b'.store shelf = b.store shelf := by
  cases shelf
  · exact congrArg Prod.fst h
  · exact congrArg (fun x => x.2.1) h

lemma cursors_of_fixtures (h : b'.fixtures = b.fixtures) : b'.cursors = b.cursors :=
  congrArg (fun x => x.2.2) h

@[simp] lemma cursors_withStore (b : Workbench) (shelf : Shelf) (s : Metadata) :
    (b.withStore shelf s).cursors = b.cursors := by
  cases shelf <;> rfl

@[simp] lemma store_withStore (b : Workbench) (shelf shelf' : Shelf) (s : Metadata) :
    (b.withStore shelf s).store shelf' = if shelf' = shelf then s else b.store shelf' := by
  cases shelf <;> cases shelf' <;> rfl

lemma fixtures_withStore (b : Workbench) (shelf : Shelf) :
    (b.withStore shelf (b.store shelf)).fixtures = b.fixtures := by
  cases shelf <;> rfl

lemma fixtures_withSite {site : Site} (b : Workbench) (h : site.source = b.site.source) :
    (b.withSite site).fixtures = b.fixtures := by
  simp only [fixtures, withSite, h]
  rfl

lemma fixtures_perform (b : Workbench) (e : Engine) (duty : Duty) :
    (b.perform e duty).1.1.fixtures = b.fixtures := by
  cases duty with
  | load | follow batch | persist => rfl
  | rescan view =>
    have hstore : (e.rescan (b.source .guarded) (b.source view) b.vault).1.2.1 =
        b.store view.shelf := by
      rcases hrescan : e.rescan (b.source .guarded) (b.source view) b.vault with ⟨⟨e', s, v⟩, r⟩
      obtain ⟨hs, -⟩ := Engine.rescan_cases hrescan
      rw [hs]
      cases view <;> rfl
    have hsame := b.fixtures_withStore view.shelf
    rw [← hstore] at hsame
    exact hsame

lemma fixtures_settle (b : Workbench) (x : Executor) : (b.settle x).1.fixtures = b.fixtures := by
  unfold settle
  split
  · rfl
  · exact b.fixtures_withSite (x.source_drain b.site)

lemma fixtures_send (b : Workbench) (x : Executor) (job : Job) :
    (b.send x job).1.fixtures = b.fixtures := by
  unfold send
  split
  · rfl
  · exact b.fixtures_settle _

lemma fixtures_halt (b : Workbench) (x : Executor) : (b.halt x).1.fixtures = b.fixtures :=
  b.fixtures_withSite (x.source_drain b.site)

/-- **A command that neither writes to a table nor works on a cursor** leaves the stores and the
cursors as they are. -/
lemma fixtures_step (hmutation : c.mutation? = none) (hcursor : c.cursor? = none)
    (h : b.step c = some (b', r)) : b'.fixtures = b.fixtures := by
  cases c with
  | create | drop | put | putBytes | delete | feedPut | feedDelete => cases hmutation
  | openCursor | next | rewind | closeCursor | summarize => cases hcursor
  | openTable view name handle =>
    simp only [step] at h
    split at h <;> cases h <;> rfl
  | followFeed =>
    simp only [step, Option.bind_eq_bind, Option.bind_eq_some_iff] at h
    obtain ⟨e, -, heq⟩ := h
    cases heq
    exact fixtures_perform { b with feed := b.feed.take.1 } e (.follow b.feed.take.2)
  | attempt duty | run duty =>
    simp only [step, Option.bind_eq_bind, Option.bind_eq_some_iff] at h
    obtain ⟨e, -, heq⟩ := h
    cases heq
    exact b.fixtures_perform e duty
  | engineTables | engineTable | dismantle | isRunning =>
    simp only [step, Option.bind_eq_bind, Option.bind_eq_some_iff] at h
    obtain ⟨x, -, heq⟩ := h
    cases heq
    rfl
  | spawn plan hold =>
    simp only [step, Option.bind_eq_bind, Option.bind_eq_some_iff] at h
    obtain ⟨e, -, heq⟩ := h
    cases heq
    split
    · exact b.fixtures_withSite (Executor.source_turn (.start plan e) b.site)
    · rfl
  | offer batch =>
    simp only [step, Option.bind_eq_bind, Option.bind_eq_some_iff] at h
    obtain ⟨x, -, heq⟩ := h
    split at heq
    · cases heq
      rfl
    · cases heq
      exact b.fixtures_settle _
  | send job =>
    simp only [step, Option.bind_eq_bind, Option.bind_eq_some_iff] at h
    obtain ⟨x, -, heq⟩ := h
    obtain rfl : (b.send x job).1 = b' := congrArg Prod.fst (Option.some.inj heq)
    exact b.fixtures_send x job
  | sendFeed =>
    simp only [step, Option.bind_eq_bind, Option.bind_eq_some_iff] at h
    obtain ⟨x, -, heq⟩ := h
    obtain rfl : (send { b with feed := b.feed.take.1 } x (.follow b.feed.take.2)).1 = b' :=
      congrArg Prod.fst (Option.some.inj heq)
    exact fixtures_send { b with feed := b.feed.take.1 } x (.follow b.feed.take.2)
  | release =>
    simp only [step, Option.bind_eq_bind, Option.bind_eq_some_iff] at h
    obtain ⟨x, -, heq⟩ := h
    cases heq
    exact fixtures_settle { b with held := false } x
  | stop | discard =>
    simp only [step, Option.bind_eq_bind, Option.bind_eq_some_iff] at h
    obtain ⟨x, -, heq⟩ := h
    cases heq
    exact b.fixtures_halt x
  | _ =>
    cases h
    rfl

/-! ### Tables and cursors -/

lemma tables_dropCursor (b : Workbench) (name : String) (shelf : Shelf) :
    ((b.dropCursor name).store shelf).tables = (b.store shelf).tables := by
  unfold dropCursor
  split
  · rfl
  next shelf' cursor hget =>
    show ((b.withStore shelf' (b.store shelf').closeCursor).store shelf).tables = _
    rw [store_withStore]
    split
    next heq =>
      rw [heq]
      rfl
    · rfl

lemma get?_dropCursor {name other : String} (b : Workbench) (hne : other ≠ name) :
    (b.dropCursor name).cursors.get? other = b.cursors.get? other := by
  unfold dropCursor
  split
  · rfl
  · simp only [SortedMap.get?_erase, if_neg hne]

/-- **A command that writes to a table** does what the write does to its store, and leaves the
other store and every cursor as they are. -/
lemma step_of_mutation {shelf : Shelf} {m : Mutation} (hmutation : c.mutation? = some (shelf, m))
    (h : b.step c = some (b', r)) :
    (∀ shelf', b'.store shelf' =
      if shelf' = shelf then (b.store shelf).mutate m else b.store shelf') ∧
    b'.cursors = b.cursors := by
  cases c with
  | create shelf name shape | drop shelf name | put shelf name key entry
  | putBytes shelf name key bytes | delete shelf name key =>
    cases hmutation
    cases h
    exact ⟨fun _ => store_withStore .., cursors_withStore ..⟩
  | feedPut name key entry =>
    cases hmutation
    cases h
    refine ⟨fun shelf' => ?_, rfl⟩
    cases shelf'
    · exact b.feed.store_put b.main name key entry
    · rfl
  | feedDelete name key =>
    cases hmutation
    cases h
    refine ⟨fun shelf' => ?_, rfl⟩
    cases shelf'
    · exact b.feed.store_delete b.main name key
    · rfl
  | _ => cases hmutation

/-- What opening a cursor comes to: its table has gone, or the cursor stands at the start of the
table as it is now. -/
lemma openCursor_cases {handle name : String} {shelf : Shelf} {opened : Handle}
    (hhandle : b.handles.get? handle = some (shelf, opened))
    (h : b.step (.openCursor handle name) = some (b', r)) :
    (∃ failure, (b.store shelf).table opened.table = .error failure ∧
      r = .error failure ∧ b'.fixtures = b.fixtures) ∨
    ∃ t, (b.store shelf).table opened.table = .ok t ∧ r = .ok .done ∧
      (∀ shelf', (b'.store shelf').tables = (b.store shelf').tables) ∧
      b'.cursors.get? name = some (shelf, .start opened.table t opened.budget) ∧
      ∀ other, other ≠ name → b'.cursors.get? other = b.cursors.get? other := by
  simp only [step, hhandle, Option.bind_eq_bind, Option.bind_some, Metadata.openCursor] at h
  rcases htable : (b.store shelf).table opened.table with failure | t
  · left
    rw [htable] at h
    cases h
    exact ⟨failure, rfl, rfl, b.fixtures_withStore shelf⟩
  · right
    rw [htable] at h
    cases h
    refine ⟨t, rfl, rfl, fun shelf' => ?_, ?_, fun other hne => ?_⟩
    · refine (tables_dropCursor _ name shelf').trans ?_
      rw [store_withStore]
      split
      next heq =>
        rw [heq]
      · rfl
    · simp
    · rw [SortedMap.get?_insert, if_neg hne, get?_dropCursor _ hne, cursors_withStore]

/-- **A command that works on a cursor** leaves all tables and every other cursor as they are. -/
lemma step_of_cursor {name : String} (hcursor : c.cursor? = some name)
    (h : b.step c = some (b', r)) :
    (∀ shelf, (b'.store shelf).tables = (b.store shelf).tables) ∧
    ∀ other, other ≠ name → b'.cursors.get? other = b.cursors.get? other := by
  cases c with
  | openCursor handle cursor =>
    cases hcursor
    have hhandle : ∃ x, b.handles.get? handle = some x := by
      simp only [step, Option.bind_eq_bind, Option.bind_eq_some_iff] at h
      obtain ⟨x, hx, -⟩ := h
      exact ⟨x, hx⟩
    obtain ⟨⟨shelf, opened⟩, hhandle⟩ := hhandle
    rcases openCursor_cases hhandle h with ⟨-, -, -, hsame⟩ | ⟨-, -, -, htables, -, hothers⟩
    · refine ⟨fun shelf' => ?_, fun other _ => ?_⟩
      · rw [store_of_fixtures hsame]
      · rw [cursors_of_fixtures hsame]
    · exact ⟨htables, hothers⟩
  | next cursor | rewind cursor | summarize cursor sizer label =>
    cases hcursor
    simp only [step, Option.bind_eq_bind, Option.bind_eq_some_iff] at h
    obtain ⟨⟨shelf, cursor⟩, -, heq⟩ := h
    cases heq
    refine ⟨fun shelf' => ?_, fun other hne => ?_⟩
    · cases shelf' <;> rfl
    · rw [SortedMap.get?_insert, if_neg hne]
  | closeCursor cursor =>
    cases hcursor
    cases h
    exact ⟨b.tables_dropCursor name, fun other hne => b.get?_dropCursor hne⟩
  | _ => cases hcursor

lemma tables_step (h : b.step c = some (b', r)) (shelf : Shelf) :
    (b'.store shelf).tables = ((b.store shelf).mutateAll (c.mutationOf shelf).toList).tables := by
  unfold Command.mutationOf
  rcases hmutation : c.mutation? with _ | ⟨shelf', m⟩
  · rcases hcursor : c.cursor? with _ | name
    · rw [store_of_fixtures (fixtures_step hmutation hcursor h)]
      rfl
    · exact (step_of_cursor hcursor h).1 shelf
  · rw [(step_of_mutation hmutation h).1 shelf]
    by_cases heq : shelf = shelf'
    · subst heq
      simp [Metadata.mutateAll]
    · simp [heq, Ne.symm heq, Metadata.mutateAll]

lemma cursor_step {name : String} (h : b.step c = some (b', r)) (hname : c.cursor? ≠ some name) :
    b'.cursors.get? name = b.cursors.get? name := by
  rcases hmutation : c.mutation? with _ | ⟨shelf, m⟩
  · rcases hcursor : c.cursor? with _ | other
    · rw [cursors_of_fixtures (fixtures_step hmutation hcursor h)]
    · have hne : name ≠ other := by
        rintro rfl
        exact hname hcursor
      exact (step_of_cursor hcursor h).2 name hne
  · rw [(step_of_mutation hmutation h).2]

/-! ### Runs -/

/-- The bench after a command. One that asks for what is not there changes nothing. -/
def after (b : Workbench) (c : Command) : Workbench :=
  match b.step c with
  | none => b
  | some (b, _) => b

def run (b : Workbench) (cs : List Command) : Workbench := cs.foldl after b

/-- What a write writes to is always there. -/
lemma mutation?_of_no_step (h : b.step c = none) : c.mutation? = none := by
  cases c with
  | create | drop | put | putBytes | delete | feedPut | feedDelete => cases h
  | _ => rfl

lemma tables_after (b : Workbench) (c : Command) (shelf : Shelf) :
    ((b.after c).store shelf).tables =
      ((b.store shelf).mutateAll (c.mutationOf shelf).toList).tables := by
  unfold after
  split
  next h =>
    rw [Command.mutationOf, mutation?_of_no_step h]
    rfl
  next h => exact tables_step h shelf

lemma cursor_after {name : String} (b : Workbench) (hname : c.cursor? ≠ some name) :
    (b.after c).cursors.get? name = b.cursors.get? name := by
  unfold after
  split
  · rfl
  next h => exact cursor_step h hname

/-- **The tables of a store are what the writes among the commands make of them.** -/
theorem tables_run (b : Workbench) (cs : List Command) (shelf : Shelf) :
    ((b.run cs).store shelf).tables =
      ((b.store shelf).mutateAll (cs.filterMap (·.mutationOf shelf))).tables := by
  induction cs generalizing b with
  | nil => rfl
  | cons c rest ih =>
    have hfirst := Metadata.tables_mutateAll_congr (b.tables_after c shelf)
      (rest.filterMap (·.mutationOf shelf))
    rw [run, List.foldl_cons, ← run, ih, hfirst]
    rcases hm : c.mutationOf shelf with _ | m
    · rw [List.filterMap_cons_none hm]
      rfl
    · rw [List.filterMap_cons_some hm]
      rfl

end Workbench

end TableTotals
