import FtsUring.Index.InvertedIndex
import FtsUring.Storage.PoolLifecycle

/-!
# What the index logs

Searching the tree and assigning values in it log nothing. Inserting a key logs one record for the key, and
one for a leaf that is split. So adding a posting changes the log only when its term is new.
-/

namespace FtsUring

open Foundation

/-- A command that appends no record but one of the B-tree. -/
def PageCommand.AppendsTree : PageCommand → Prop
  | .walAppend _ recType _ _ payload =>
    (recType = .recInsert ∧ payload.length = 8) ∨ (recType = .btreeSplit ∧ payload.length = 16)
  | _ => True

/-- Appending nothing. -/
theorem PageCommand.AppendsNothing.appendsTree {command : PageCommand} (h : command.AppendsNothing) :
    command.AppendsTree := by
  cases command with
  | walAppend txnId recType pageId slotId payload => exact h.elim
  | _ => trivial

/-- Searching the tree logs nothing. -/
theorem logs_btreeSearchFrom (key : UInt64) (fuel currPageId : ℕ) :
    (btreeSearchFrom key fuel currPageId).Calls PageCommand.AppendsNothing := by
  induction fuel generalizing currPageId with
  | zero => trivial
  | succ fuel ih =>
    rw [btreeSearchFrom]
    split_ifs with hend
    · exact .pure _
    apply Program.Calls.bind (.perform trivial)
    intro found
    split_ifs with hfound
    · exact .pure _
    apply Program.Calls.bind (.perform trivial)
    intro page
    split_ifs with hinternal hleaf
    · exact .bind (.perform trivial) fun _ => ih _
    · apply Program.Calls.bind (.perform trivial)
      intro _
      cases page.leafEntries.find? fun entry => entry.key = key with
      | some entry => exact .pure _
      | none => exact ih _
    · exact .bind (.perform trivial) fun _ => .pure _

/-- Updating the tree logs nothing. -/
theorem logs_btreeUpdateFrom (key : UInt64) (pageId : UInt32) (slotId : UInt16) (fuel currPageId : ℕ) :
    (btreeUpdateFrom key pageId slotId fuel currPageId).Calls PageCommand.AppendsNothing := by
  induction fuel generalizing currPageId with
  | zero => trivial
  | succ fuel ih =>
    rw [btreeUpdateFrom]
    split_ifs with hend
    · exact .pure _
    apply Program.Calls.bind (.perform trivial)
    intro found
    split_ifs with hfound
    · exact .pure _
    apply Program.Calls.bind (.perform trivial)
    intro page
    split_ifs with hleaf
    · cases page.leafEntries.findIdx? fun entry => entry.key = key with
      | some i =>
        apply Program.Calls.bind (.perform trivial)
        intro _
        apply Program.Calls.bind (.perform trivial)
        intro _
        exact .bind (.perform trivial) fun _ => .pure _
      | none => exact .bind (.perform trivial) fun _ => ih _
    · exact .bind (.perform trivial) fun _ => .pure _

/-- Walking right logs nothing. -/
theorem logs_btreeMoveRight (key : UInt64) (fuel currPageId : ℕ) :
    (btreeMoveRight key fuel currPageId).Calls PageCommand.AppendsNothing := by
  induction fuel generalizing currPageId with
  | zero => trivial
  | succ fuel ih =>
    rw [btreeMoveRight]
    apply Program.Calls.bind (.perform trivial)
    intro leaf
    split_ifs with hright
    · apply Program.Calls.bind (.perform trivial)
      intro _
      apply Program.Calls.bind (.perform trivial)
      intro found
      split_ifs with hfound
      · exact .pure _
      · exact ih _
    · exact .pure _

/-- Logging a change of the tree. -/
theorem logs_logRecord (txnId : UInt32) {recType : WALRecordType} (pageId slotId : ℕ)
    {payload : List UInt8} (stamped : List ℕ)
    (h : (recType = .recInsert ∧ payload.length = 8) ∨ (recType = .btreeSplit ∧ payload.length = 16)) :
    (logRecord txnId recType pageId slotId payload stamped).Calls PageCommand.AppendsTree := by
  rw [logRecord]
  apply Program.Calls.bind (.perform trivial)
  intro attached
  split_ifs with hattached
  · refine .bind (.perform h) fun lsn => ?_
    induction stamped with
    | nil => exact .pure _
    | cons pageId stamped ih => exact .bind (.perform trivial) fun _ => ih
  · exact .pure _

/-- Splitting a leaf logs a change of the tree. -/
theorem logs_splitLeafNode (leafPageId : ℕ) (txnId : UInt32) :
    (splitLeafNode leafPageId txnId).Calls PageCommand.AppendsTree := by
  rw [splitLeafNode]
  apply Program.Calls.bind (.perform trivial)
  intro found
  split_ifs with hfound
  · exact .pure _
  refine .bind (.perform trivial) fun newLeafId => .bind (.perform trivial) fun _ => ?_
  apply Program.Calls.bind (.perform trivial)
  intro fetched
  split_ifs with hfetched
  · exact .perform trivial
  refine .bind (.perform trivial) fun _ => .bind (.perform trivial) fun oldLeaf => ?_
  refine .bind (.perform trivial) fun _ => .bind (.perform trivial) fun _ => ?_
  apply Program.Calls.bind (logs_logRecord _ _ _ _ (Or.inr ⟨rfl, by simp⟩))
  intro _
  refine .bind (.perform trivial) fun _ => .bind (.perform trivial) fun _ => ?_
  exact .bind (.perform trivial) fun _ => .perform trivial

/-- Making room in a leaf logs at most a change of the tree. -/
theorem logs_btreeMakeRoom (key : UInt64) (currPageId : ℕ) (txnId : UInt32) :
    (btreeMakeRoom key currPageId txnId).Calls PageCommand.AppendsTree := by
  rw [btreeMakeRoom]
  apply Program.Calls.bind (.perform trivial)
  intro leaf
  split_ifs with hfull
  · apply Program.Calls.bind (.perform trivial)
    intro _
    apply Program.Calls.bind (logs_splitLeafNode _ _)
    intro _
    apply Program.Calls.bind (.perform trivial)
    intro found
    split_ifs with hfound
    · exact .pure _
    apply Program.Calls.bind (.perform trivial)
    intro leaf
    split_ifs with hright
    · apply Program.Calls.bind (.perform trivial)
      intro _
      apply Program.Calls.bind (.perform trivial)
      intro fetched
      split_ifs with hfetched
      · exact .pure _
      · exact .pure _
    · exact .pure _
  · exact .pure _

/-- Inserting a key logs changes of the tree. -/
theorem logs_btreeInsert (rootPageId : ℕ) (key : UInt64) (pageId : UInt32) (slotId : UInt16)
    (txnId : UInt32) :
    (btreeInsert rootPageId key pageId slotId txnId).Calls PageCommand.AppendsTree := by
  rw [btreeInsert]
  apply Program.Calls.bind (.perform trivial)
  intro found
  split_ifs with hfound
  · exact .pure _
  apply Program.Calls.bind (.perform trivial)
  intro page
  split_ifs with hleaf
  · exact .bind (.perform trivial) fun _ => .pure _
  apply Program.Calls.bind ((logs_btreeMoveRight key walkLimit rootPageId).mono
    fun _ => PageCommand.AppendsNothing.appendsTree)
  intro walked
  cases walked with
  | none => exact .pure _
  | some currPageId =>
    apply Program.Calls.bind (logs_btreeMakeRoom _ _ _)
    intro room
    cases room with
    | none => exact .pure _
    | some leafPageId =>
      refine .bind ?_ fun _ => .pure _
      rw [btreeInsertEntry]
      refine .bind (.perform trivial) fun leaf => .bind (.perform trivial) fun _ => ?_
      apply Program.Calls.bind (logs_logRecord _ _ _ _ (Or.inl ⟨rfl, by simp⟩))
      intro _
      exact .bind (.perform trivial) fun _ => .perform trivial

/-- Adding a posting logs nothing when the term is in the tree, and changes of the tree when it is not. -/
theorem logs_invertedIndexAddPosting (termId docId : UInt32) (dataPageId dataSlotId : ℕ)
    (termPosition : UInt32) :
    ∃ add : Option (ℕ × ℕ) → PageProgram Bool,
      invertedIndexAddPosting termId docId dataPageId dataSlotId termPosition =
          btreeSearch btreeRootPageId termId.toUInt64 >>= add ∧
        (∀ place, (add (some place)).Calls PageCommand.AppendsNothing) ∧
        (add none).Calls PageCommand.AppendsTree := by
  refine ⟨_, rfl, fun place => ?_, ?_⟩
  · obtain ⟨postingPageId, slotId⟩ := place
    dsimp only
    apply Program.Calls.bind (.perform trivial)
    intro found
    split_ifs with hfound
    · exact .pure _
    apply Program.Calls.bind (.perform trivial)
    intro page
    split_ifs with hsame hroom
    · refine .bind (.perform trivial) fun _ => .bind (.perform trivial) fun _ => .pure _
    · refine .bind (.perform trivial) fun _ => .bind (.perform trivial) fun _ => .pure _
    refine .bind (.perform trivial) fun newPageId => .bind (.perform trivial) fun zeroed => ?_
    split_ifs with hzeroed
    · exact .bind (.perform trivial) fun _ => .pure _
    apply Program.Calls.bind (.perform trivial)
    intro fetched
    split_ifs with hfetched
    · exact .bind (.perform trivial) fun _ => .pure _
    refine .bind (.perform trivial) fun _ => .bind (.perform trivial) fun _ => ?_
    refine .bind (.perform trivial) fun _ => .bind ?_ fun _ => .pure _
    exact logs_btreeUpdateFrom _ _ _ _ _
  · dsimp only
    refine .bind (.perform trivial) fun newPageId => .bind (.perform trivial) fun zeroed => ?_
    split_ifs with hzeroed
    · exact .pure _
    apply Program.Calls.bind (.perform trivial)
    intro fetched
    split_ifs with hfetched
    · exact .pure _
    refine .bind (.perform trivial) fun _ => .bind (.perform trivial) fun _ => ?_
    exact .bind (logs_btreeInsert _ _ _ _ _) fun _ => .pure _

/-- Adding a posting logs changes of the tree. -/
theorem logs_addPosting (termId docId : UInt32) (dataPageId dataSlotId : ℕ) (termPosition : UInt32) :
    (invertedIndexAddPosting termId docId dataPageId dataSlotId termPosition).Calls
      PageCommand.AppendsTree := by
  obtain ⟨add, hadd, hknown, hnew⟩ :=
    logs_invertedIndexAddPosting termId docId dataPageId dataSlotId termPosition
  rw [hadd]
  refine .bind ?_ fun found => ?_
  · exact (logs_btreeSearchFrom _ _ _).mono fun _ => PageCommand.AppendsNothing.appendsTree
  · cases found with
    | none => exact hnew
    | some place => exact (hknown place).mono fun _ => PageCommand.AppendsNothing.appendsTree

/-! ## The log of the array -/

/-- The log is the same. -/
def PageArray.SameLog (s t : PageArray) : Prop := t.wal = s.wal ∧ t.walFile = s.walFile

/-- The log stays the same over several steps. -/
theorem PageArray.SameLog.trans {s t u : PageArray} (h : s.SameLog t) (h' : t.SameLog u) : s.SameLog u :=
  ⟨h'.1.trans h.1, h'.2.trans h.2⟩

/-- A command that appends no record keeps the log of the array. -/
theorem sameLog_run {command : PageCommand} (hallowed : command.AppendsNothing) {s t : PageArray}
    {answer : command.Answer} (hrun : arrayHandler.run command s = some (answer, t)) : s.SameLog t := by
  cases command with
  | walAppend txnId recType pageId slotId payload => exact hallowed.elim
  | pageData pageId =>
    simp only [arrayHandler, Option.dite_none_right_eq_some, Option.some.injEq] at hrun
    obtain ⟨-, -, rfl⟩ := hrun
    exact ⟨rfl, rfl⟩
  | modifyPage pageId change =>
    simp only [arrayHandler, Option.dite_none_right_eq_some, Option.some.injEq] at hrun
    obtain ⟨-, -, rfl⟩ := hrun
    exact ⟨rfl, rfl⟩
  | fetchPage pageId =>
    simp only [arrayHandler, Option.ite_none_right_eq_some, Option.some.injEq] at hrun
    obtain ⟨-, -, rfl⟩ := hrun
    exact ⟨rfl, rfl⟩
  | unpinPage pageId isDirty hint =>
    simp only [arrayHandler, Option.ite_none_right_eq_some, Option.some.injEq] at hrun
    obtain ⟨-, -, rfl⟩ := hrun
    exact ⟨rfl, rfl⟩
  | takePageId =>
    simp only [arrayHandler, Option.ite_none_right_eq_some, Option.some.injEq] at hrun
    obtain ⟨-, -, rfl⟩ := hrun
    exact ⟨rfl, rfl⟩
  | setNextPageId value =>
    simp only [arrayHandler, Option.ite_none_right_eq_some, Option.some.injEq] at hrun
    obtain ⟨-, -, rfl⟩ := hrun
    exact ⟨rfl, rfl⟩
  | _ =>
    simp only [arrayHandler, Option.some.injEq] at hrun
    obtain ⟨-, rfl⟩ := hrun
    exact ⟨rfl, rfl⟩

/-- A program that appends no record keeps the log of the array. -/
theorem sameLog_exec {α : Type} {p : PageProgram α} (hp : p.Calls PageCommand.AppendsNothing)
    {s t : PageArray} {value : α} (hexec : arrayHandler.exec p s = some (value, t)) : s.SameLog t :=
  @Program.Calls.exec _ _ _ _ p hp arrayHandler (fun u => s.SameLog u)
    (fun _ hallowed _ _ _ hsame hrun => hsame.trans (sameLog_run hallowed hrun)) _ _ _ ⟨rfl, rfl⟩ hexec

end FtsUring
