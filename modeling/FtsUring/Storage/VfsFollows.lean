import FtsUring.Storage.Vfs

/-!
# Following the pool whose calls are made at once

An operation of the pool over a backend follows the operation whose reads and writes are carried out at once: the
decisions of the operating system give the outcomes of the reads and writes, and all outcomes come from some
decisions. Following is closed under sequencing. If the single reads and writes of a backend follow, and its flush
of the whole pool, then so does every operation, and every run of the pool over the backend is a run of the pool
whose calls are made at once.
-/

namespace FtsUring

open Foundation

/-- The storage when the coming reads and writes of pages have the given outcomes. -/
def Storage.withOutcomes (st : Storage) (reads writes : List IoOutcome) : Storage :=
  { st with host := { st.host with pageReads := reads, pageWrites := writes } }

namespace Storage

variable (st : Storage) (reads writes : List IoOutcome)

/-- The outcomes do not change the pool. -/
@[simp] theorem bpm_withOutcomes : (st.withOutcomes reads writes).bpm = st.bpm := rfl

/-- Flushing the log uses up no outcome of a page. -/
theorem flushWal_withOutcomes : (st.withOutcomes reads writes).flushWal = st.flushWal.withOutcomes reads writes := by
  obtain ⟨bpm, wal, host⟩ := st
  cases wal with
  | none => rfl
  | some wal =>
    simp only [flushWal, withOutcomes, walFlush, Host.syncWal]
    split_ifs
    · cases host.walSyncs.headD .full <;> rfl
    · rfl

end Storage

/-! ## Following -/

/-- Whatever the operating system decides, the operation over the backend does what the operation over queued
outcomes does for some outcomes, which it uses up; and for all outcomes there are such decisions. The latter works on
what the view shows of the former's storage. -/
structure Follows {κ χ α β : Type} (view : VfsStorage κ χ → Storage) (u : VfsStorage κ χ)
    (p : VfsStorage κ χ → Option (α × VfsStorage κ χ))
    (f : Storage → β × Storage) (related : α → β → VfsStorage κ χ → Prop) : Prop where
  refines : ∀ choices a result, p (u.setChoices choices) = some (a, result) →
    ∃ b u' rest reads writes, result = u'.setChoices rest ∧ related a b u' ∧ ∀ moreReads moreWrites,
      f ((view u).withOutcomes (reads ++ moreReads) (writes ++ moreWrites)) =
        (b, (view u').withOutcomes moreReads moreWrites)
  realizes : ∀ reads writes, ∃ choices a b u' reads' writes', related a b u' ∧
    f ((view u).withOutcomes reads writes) = (b, (view u').withOutcomes reads' writes') ∧
      ∀ more, p (u.setChoices (choices ++ more)) = some (a, u'.setChoices more)

namespace Follows

variable {κ χ α β γ δ : Type} {view : VfsStorage κ χ → Storage} {u : VfsStorage κ χ}
  {p p' : VfsStorage κ χ → Option (α × VfsStorage κ χ)}
  {f f' : Storage → β × Storage} {related related' : α → β → VfsStorage κ χ → Prop}

/-- A change that makes no system call; it may change the rings. -/
theorem turn (t : VfsStorage κ χ → VfsStorage κ χ) (g : Storage → Storage) {a : α} {b : β}
    (hchoices : ∀ choices, t (u.setChoices choices) = (t u).setChoices choices)
    (hcommutes : ∀ reads writes, g ((view u).withOutcomes reads writes) = (view (t u)).withOutcomes reads writes)
    (hrelated : related a b (t u)) :
    Follows view u (fun u => some (a, t u)) (fun st => (b, g st)) related where
  refines choices a' result hresult := by
    obtain ⟨rfl, rfl⟩ := Prod.mk.inj (Option.some.inj hresult)
    exact ⟨b, t u, choices, [], [], hchoices choices, hrelated, fun reads writes =>
      congrArg (Prod.mk b) (hcommutes reads writes)⟩
  realizes reads writes :=
    ⟨[], a, b, t u, reads, writes, hrelated, congrArg (Prod.mk b) (hcommutes reads writes), fun more =>
      congrArg (fun next => some (a, next)) (hchoices more)⟩

/-- A change of the pool, the log or the files that makes no system call. -/
theorem change (g : Storage → Storage) {a : α} {b : β}
    (hcommutes : ∀ reads writes, g (u.storage.withOutcomes reads writes) =
      (g u.storage).withOutcomes reads writes)
    (hrelated : related a b (u.setStorage (g u.storage))) :
    Follows VfsStorage.storage u (fun u => some (a, u.setStorage (g u.storage))) (fun st => (b, g st)) related :=
  turn (fun u => u.setStorage (g u.storage)) g (fun _ => rfl) hcommutes hrelated

/-- A change that makes no system call, and then an operation. -/
theorem after (g : Storage → Storage)
    (hcommutes : ∀ reads writes, g (u.storage.withOutcomes reads writes) =
      (g u.storage).withOutcomes reads writes)
    (h : Follows VfsStorage.storage (u.setStorage (g u.storage)) p f related) :
    Follows VfsStorage.storage u (fun u => p (u.setStorage (g u.storage))) (fun st => f (g st)) related where
  refines choices a result hresult := by
    obtain ⟨b, u', rest, reads, writes, heq, hrelated, hsame⟩ := h.refines choices a result hresult
    exact ⟨b, u', rest, reads, writes, heq, hrelated, fun moreReads moreWrites => by
      rw [hcommutes]
      exact hsame moreReads moreWrites⟩
  realizes reads writes := by
    obtain ⟨choices, a, b, u', reads', writes', hrelated, hsame, hp⟩ := h.realizes reads writes
    exact ⟨choices, a, b, u', reads', writes', hrelated, by rw [hcommutes]; exact hsame, hp⟩

/-- Nothing is done. -/
theorem done {a : α} {b : β} (hrelated : related a b u) :
    Follows view u (fun u => some (a, u)) (fun st => (b, st)) related :=
  turn id id (fun _ => rfl) (fun _ _ => rfl) hrelated

/-- The operations need to be the same in this state only. -/
theorem congr (h : Follows view u p' f' related)
    (hp : ∀ choices, p (u.setChoices choices) = p' (u.setChoices choices))
    (hf : ∀ reads writes, f ((view u).withOutcomes reads writes) = f' ((view u).withOutcomes reads writes)) :
    Follows view u p f related where
  refines choices a result hresult := by
    obtain ⟨b, u', rest, reads, writes, heq, hrelated, hsame⟩ := h.refines choices a result (hp choices ▸ hresult)
    exact ⟨b, u', rest, reads, writes, heq, hrelated, fun moreReads moreWrites => by rw [hf, hsame]⟩
  realizes reads writes := by
    obtain ⟨choices, a, b, u', reads', writes', hrelated, hsame, hp'⟩ := h.realizes reads writes
    exact ⟨choices, a, b, u', reads', writes', hrelated, by rw [hf, hsame], fun more => by rw [hp, hp']⟩

/-- The operation starts with other rings. -/
theorem start {v : VfsStorage κ χ} (h : Follows view v p' f related) (hstorage : view v = view u)
    (hp : ∀ choices, p (u.setChoices choices) = p' (v.setChoices choices)) : Follows view u p f related where
  refines choices a result hresult := hstorage ▸ h.refines choices a result (hp choices ▸ hresult)
  realizes reads writes := by
    obtain ⟨choices, a, b, u', reads', writes', hrelated, hsame, hp'⟩ := h.realizes reads writes
    exact ⟨choices, a, b, u', reads', writes', hrelated, hstorage ▸ hsame, fun more => by rw [hp, hp']⟩

/-- One operation and then another one. -/
theorem bind {q : α → VfsStorage κ χ → Option (γ × VfsStorage κ χ)} {g : β → Storage → δ × Storage}
    {related' : γ → δ → VfsStorage κ χ → Prop} (h : Follows view u p f related)
    (hnext : ∀ a b u', related a b u' → Follows view u' (q a) (g b) related') :
    Follows view u (fun u => (p u).bind fun result => q result.1 result.2)
      (fun st => g (f st).1 (f st).2) related' where
  refines choices c result hresult := by
    obtain ⟨⟨a, mid⟩, hmid, hrest⟩ := Option.bind_eq_some_iff.mp hresult
    obtain ⟨b, u', rest, reads, writes, rfl, hrelated, hsame⟩ := h.refines choices a mid hmid
    obtain ⟨d, u'', rest', reads', writes', heq, hrelated', hsame'⟩ :=
      (hnext a b u' hrelated).refines rest c result hrest
    refine ⟨d, u'', rest', reads ++ reads', writes ++ writes', heq, hrelated', fun moreReads moreWrites => ?_⟩
    rw [List.append_assoc, List.append_assoc, hsame]
    exact hsame' moreReads moreWrites
  realizes reads writes := by
    obtain ⟨choices, a, b, u', reads', writes', hrelated, hsame, hp⟩ := h.realizes reads writes
    obtain ⟨choices', c, d, u'', reads'', writes'', hrelated', hsame', hq⟩ :=
      (hnext a b u' hrelated).realizes reads' writes'
    refine ⟨choices ++ choices', c, d, u'', reads'', writes'', hrelated', ?_, fun more => ?_⟩
    · rw [hsame]
      exact hsame'
    · rw [List.append_assoc, hp, Option.bind_some]
      exact hq more

/-- An operation whose answer is changed. -/
theorem map {g : α → VfsStorage κ χ → γ × VfsStorage κ χ} {k : β → Storage → δ × Storage}
    {related' : γ → δ → VfsStorage κ χ → Prop} (h : Follows view u p f related)
    (hnext : ∀ a b u', related a b u' → Follows view u' (fun u => some (g a u)) (k b) related') :
    Follows view u (fun u => (p u).map fun result => g result.1 result.2) (fun st => k (f st).1 (f st).2) related' :=
  (h.bind hnext).congr (fun _ => Option.map_eq_bind) fun _ _ => rfl

/-- The view may be left out where it shows the storage. -/
theorem of_view (h : Follows view u p f related) (hbefore : view u = u.storage)
    (hafter : ∀ a b u', related a b u' → view u' = u'.storage) : Follows VfsStorage.storage u p f related where
  refines choices a result hresult := by
    obtain ⟨b, u', rest, reads, writes, heq, hrelated, hsame⟩ := h.refines choices a result hresult
    rw [hbefore, hafter a b u' hrelated] at hsame
    exact ⟨b, u', rest, reads, writes, heq, hrelated, hsame⟩
  realizes reads writes := by
    obtain ⟨choices, a, b, u', reads', writes', hrelated, hsame, hp⟩ := h.realizes reads writes
    rw [hbefore, hafter a b u' hrelated] at hsame
    exact ⟨choices, a, b, u', reads', writes', hrelated, hsame, hp⟩

/-- A weaker relation. -/
theorem mono (h : Follows view u p f related) (hweaker : ∀ a b u', related a b u' → related' a b u') :
    Follows view u p f related' where
  refines choices a result hresult := by
    obtain ⟨b, u', rest, reads, writes, heq, hrelated, hsame⟩ := h.refines choices a result hresult
    exact ⟨b, u', rest, reads, writes, heq, hweaker a b u' hrelated, hsame⟩
  realizes reads writes := by
    obtain ⟨choices, a, b, u', reads', writes', hrelated, hsame, hp⟩ := h.realizes reads writes
    exact ⟨choices, a, b, u', reads', writes', hweaker a b u' hrelated, hsame, hp⟩

end Follows

/-! ## Single reads and writes -/

/-- A write with the outcome that comes next. -/
theorem ftsVfsWriteSync_withOutcomes (st : Storage) (reads writes : List IoOutcome) (data : List UInt8)
    (offset : ℕ) (userData : Option ℕ) :
    ftsVfsWriteSync (st.withOutcomes reads writes).host data offset =
      ((vfsReply (.write data offset userData) (writes.headD .full) st.host.dataFile).res,
        { st.host with
          dataFile := vfsEffect (.write data offset userData) (writes.headD .full) st.host.dataFile
          pageReads := reads
          pageWrites := writes.tail }) := by
  simp only [ftsVfsWriteSync, Storage.withOutcomes, vfsReply, vfsEffect]
  cases (writes.headD .full).transferred data.length <;> rfl

/-- A read with the outcome that comes next. -/
theorem readPageOrFormat_withOutcomes (st : Storage) (reads writes : List IoOutcome) (pageId : ℕ) :
    readPageOrFormat (st.withOutcomes reads writes).host pageId =
      (VfsBackend.pageOfBytes pageId
          (vfsReply (.read pageSize (pageId * pageSize)) (reads.headD .full) st.host.dataFile).bytes,
        { st.host with pageReads := reads.tail, pageWrites := writes }) := by
  have hempty : VfsBackend.pageOfBytes pageId [] = slottedPageInit pageId .row := dif_neg (by decide)
  simp only [readPageOrFormat, ftsVfsReadSync, Storage.withOutcomes, vfsReply]
  cases (reads.headD .full).transferred pageSize with
  | none => rw [hempty]
  | some moved =>
    dsimp only
    rw [VfsBackend.pageOfBytes]
    split_ifs <;> rfl

/-! ## Sequential backends -/

/-- Between two operations the context of the backend is idle, and single reads and writes and the flush of a pool
of not too many frames follow those that are made at once. -/
structure SequentialVfs {κ χ : Type} (vfs : VfsBackend κ χ) (limit : ℕ) (idle : κ → Prop) : Prop where
  init : idle vfs.ftsVfsInit
  write : ∀ u : VfsStorage κ χ, idle u.ctx → ∀ data offset,
    Follows VfsStorage.storage u (fun u => vfs.ftsVfsWriteSync u data offset)
      (fun st => ((ftsVfsWriteSync st.host data offset).1,
        { st with host := (ftsVfsWriteSync st.host data offset).2 }))
      fun res res' u' => res = res' ∧ idle u'.ctx ∧ u'.storage.bpm = u.storage.bpm
  read : ∀ u : VfsStorage κ χ, idle u.ctx → ∀ pageId,
    Follows VfsStorage.storage u (fun u => vfs.readPageOrFormat u pageId)
      (fun st => ((readPageOrFormat st.host pageId).1, { st with host := (readPageOrFormat st.host pageId).2 }))
      fun page page' u' => page = page' ∧ idle u'.ctx ∧ u'.storage.bpm = u.storage.bpm
  flush : ∀ u : VfsStorage κ χ, idle u.ctx → u.storage.bpm.DistinctPages → u.storage.bpm.poolSize ≤ limit →
    Follows VfsStorage.storage u (fun u => (vfs.flushFrames u).map fun u => ((), u)) (fun st => ((), st.flushFrames))
      fun _ _ u' => idle u'.ctx

/-- The pool after the clock scan. -/
def Storage.scan (st : Storage) : Storage := { st with bpm := st.bpm.scanned }

/-- The victim search: the scan, and the write of a dirty victim. -/
theorem VfsBackend.findVictimFrame_eq {κ χ : Type} (vfs : VfsBackend κ χ) (u : VfsStorage κ χ) :
    vfs.findVictimFrame u =
      match u.storage.bpm.victim with
      | none => some (-1, u.setStorage u.storage.scan)
      | some i =>
        if (u.storage.bpm.frame i).pageId ≠ invalidPageId ∧ (u.storage.bpm.frame i).isDirty then
          (vfs.bufferPoolFlushPage (u.setStorage u.storage.scan) (u.storage.bpm.frame i).pageId).map
            fun result => (toCInt i, result.2)
        else some (toCInt i, u.setStorage u.storage.scan) := rfl

/-- Put a page into a frame. -/
def Storage.load (st : Storage) (i pageId : ℕ) (page : Page) : Storage :=
  { st with bpm := st.bpm.setFrame i ⟨pageId, 1, false, page⟩ }

/-- Pin the page of a frame. -/
def Storage.pin (st : Storage) (i : ℕ) : Storage :=
  let frame := st.bpm.frame i
  { st with bpm := st.bpm.setFrame i { frame with pinCount := (frame.pinCount + 1) % 2 ^ 32 } }

namespace SequentialVfs

variable {κ χ : Type} {vfs : VfsBackend κ χ} {limit : ℕ} {idle : κ → Prop} (h : SequentialVfs vfs limit idle)
  {u : VfsStorage κ χ} {st : Storage}

include h

/-- One page is written back. -/
theorem follows_flushPage (hidle : idle u.ctx) (pageId : ℕ) :
    Follows VfsStorage.storage u (fun u => vfs.bufferPoolFlushPage u pageId) (fun st => bufferPoolFlushPage st pageId)
      fun res res' u' => res = res' ∧ idle u'.ctx := by
  by_cases hinvalid : pageId = invalidPageId
  · refine (Follows.done (a := (-1 : ℤ)) ⟨rfl, hidle⟩).congr (fun choices => ?_) fun reads writes => ?_
    · exact if_pos hinvalid
    · exact if_pos hinvalid
  cases hfound : u.storage.bpm.frameIndex pageId with
  | none =>
    refine (Follows.done (a := (-1 : ℤ)) ⟨rfl, hidle⟩).congr (fun choices => ?_) fun reads writes => ?_
    · rw [VfsBackend.bufferPoolFlushPage, if_neg hinvalid, VfsStorage.storage_setChoices, hfound]
    · rw [bufferPoolFlushPage, if_neg hinvalid, Storage.bpm_withOutcomes, hfound]
  | some i =>
    by_cases hwrite : (u.storage.bpm.frame i).isDirty ∧ 0 ≤ u.storage.bpm.diskFd
    · have hwritten := Follows.after Storage.flushWal
        (fun reads writes => u.storage.flushWal_withOutcomes reads writes)
        (h.write (u.setStorage u.storage.flushWal) hidle
          (u.storage.bpm.frame i).pageData.bytes (pageId * pageSize))
      have hpage := @Follows.map _ _ _ _ _ _ _ _ _ _ _
        (fun res u => if res < 0 then ((-1 : ℤ), u) else (0, u.setStorage (u.storage.markClean i)))
        (fun res st => if res < 0 then ((-1 : ℤ), st) else (0, st.markClean i))
        (fun res res' u' => res = res' ∧ idle u'.ctx) hwritten fun res res' u' hres' => by
          obtain ⟨rfl, hidle', -⟩ := hres'
          by_cases hres : res < 0
          · simp only [if_pos hres]
            exact .done ⟨rfl, hidle'⟩
          · simp only [if_neg hres]
            exact .change (fun st => st.markClean i) (fun _ _ => rfl) ⟨rfl, hidle'⟩
      refine hpage.congr (fun choices => ?_) fun reads writes => ?_
      · rw [VfsBackend.bufferPoolFlushPage, if_neg hinvalid, VfsStorage.storage_setChoices, hfound]
        exact if_pos hwrite
      · rw [bufferPoolFlushPage, if_neg hinvalid, Storage.bpm_withOutcomes, hfound]
        exact if_pos hwrite
    · refine (Follows.done (a := (0 : ℤ)) ⟨rfl, hidle⟩).congr (fun choices => ?_) fun reads writes => ?_
      · rw [VfsBackend.bufferPoolFlushPage, if_neg hinvalid, VfsStorage.storage_setChoices, hfound]
        exact if_neg hwrite
      · rw [bufferPoolFlushPage, if_neg hinvalid, Storage.bpm_withOutcomes, hfound]
        exact if_neg hwrite

/-- A victim is searched and written back. -/
theorem follows_victim (hidle : idle u.ctx) :
    Follows VfsStorage.storage u vfs.findVictimFrame findVictimFrame
      fun victim victim' u' => victim = victim' ∧ idle u'.ctx := by
  have hscan : ∀ victim : ℤ, Follows VfsStorage.storage u (fun u => some (victim, u.setStorage u.storage.scan))
      (fun st => (victim, st.scan)) fun victim victim' u' => victim = victim' ∧ idle u'.ctx := fun victim =>
    .change Storage.scan (fun _ _ => rfl) ⟨rfl, hidle⟩
  cases hvictim : u.storage.bpm.victim with
  | none =>
    refine (hscan (-1)).congr (fun choices => ?_) fun reads writes => ?_
    · rw [VfsBackend.findVictimFrame_eq, VfsStorage.storage_setChoices, hvictim]
    · rw [findVictimFrame_eq, Storage.bpm_withOutcomes, hvictim]
      rfl
  | some i =>
    by_cases hdirty : (u.storage.bpm.frame i).pageId ≠ invalidPageId ∧ (u.storage.bpm.frame i).isDirty
    · have hflushed := Follows.after Storage.scan (fun _ _ => rfl)
        (h.follows_flushPage (u := u.setStorage u.storage.scan) hidle (u.storage.bpm.frame i).pageId)
      have hfound := @Follows.map _ _ _ _ _ _ _ _ _ _ _ (fun _ u => (toCInt i, u)) (fun _ st => (toCInt i, st))
        (fun victim victim' u' => victim = victim' ∧ idle u'.ctx) hflushed
        fun _ _ _ hflushed => .done ⟨rfl, hflushed.2⟩
      refine hfound.congr (fun choices => ?_) fun reads writes => ?_
      · rw [VfsBackend.findVictimFrame_eq, VfsStorage.storage_setChoices, hvictim]
        exact if_pos hdirty
      · rw [findVictimFrame_eq, Storage.bpm_withOutcomes, hvictim]
        exact congrArg (Prod.mk (toCInt i)) (if_pos hdirty)
    · refine (hscan (toCInt i)).congr (fun choices => ?_) fun reads writes => ?_
      · rw [VfsBackend.findVictimFrame_eq, VfsStorage.storage_setChoices, hvictim]
        exact if_neg hdirty
      · rw [findVictimFrame_eq, Storage.bpm_withOutcomes, hvictim]
        exact congrArg (Prod.mk (toCInt i)) (if_neg hdirty)

/-- A page is put into the frame of the victim. -/
theorem follows_load (hidle : idle u.ctx) (i pageId : ℕ) :
    Follows VfsStorage.storage u
      (fun u =>
        if 0 ≤ u.storage.bpm.diskFd then
          (vfs.readPageOrFormat u pageId).map fun read =>
            (some i, read.2.setStorage (read.2.storage.load i pageId read.1))
        else some (some i, u.setStorage (u.storage.load i pageId (slottedPageInit pageId .row))))
      (fun st =>
        if 0 ≤ st.bpm.diskFd then
          (some i, ({ st with host := (readPageOrFormat st.host pageId).2 } : Storage).load i pageId
            (readPageOrFormat st.host pageId).1)
        else (some i, st.load i pageId (slottedPageInit pageId .row)))
      fun frame frame' u' => frame = frame' ∧ idle u'.ctx := by
  by_cases hopen : 0 ≤ u.storage.bpm.diskFd
  · have hread := @Follows.map _ _ _ _ _ _ _ _ _ _ _
      (fun page u => (some i, u.setStorage (u.storage.load i pageId page)))
      (fun page st => (some i, st.load i pageId page)) (fun frame frame' u' => frame = frame' ∧ idle u'.ctx)
      (h.read u hidle pageId) fun page page' u' hpage => by
        obtain ⟨rfl, hidle', -⟩ := hpage
        exact .change (fun st => st.load i pageId page) (fun _ _ => rfl) ⟨rfl, hidle'⟩
    exact hread.congr (fun _ => if_pos hopen) fun _ _ => if_pos hopen
  · have hloaded : Follows VfsStorage.storage u
        (fun u => some (some i, u.setStorage (u.storage.load i pageId (slottedPageInit pageId .row))))
        (fun st => (some i, st.load i pageId (slottedPageInit pageId .row)))
        fun frame frame' u' => frame = frame' ∧ idle u'.ctx :=
      .change (fun st => st.load i pageId (slottedPageInit pageId .row)) (fun _ _ => rfl) ⟨rfl, hidle⟩
    exact hloaded.congr (fun _ => if_neg hopen) fun _ _ => if_neg hopen

/-- A page is pinned. -/
theorem follows_fetch (hidle : idle u.ctx) (pageId : ℕ) :
    Follows VfsStorage.storage u (fun u => vfs.bufferPoolFetchPage u pageId) (fun st => bufferPoolFetchPage st pageId)
      fun frame frame' u' => frame = frame' ∧ idle u'.ctx := by
  cases hfound : u.storage.bpm.frameIndex pageId with
  | some i =>
    have hpinned : Follows VfsStorage.storage u (fun u => some (some i, u.setStorage (u.storage.pin i)))
        (fun st => (some i, st.pin i)) fun frame frame' u' => frame = frame' ∧ idle u'.ctx :=
      .change (fun st => st.pin i) (fun _ _ => rfl) ⟨rfl, hidle⟩
    refine hpinned.congr (fun choices => ?_) fun reads writes => ?_
    · rw [VfsBackend.bufferPoolFetchPage, VfsStorage.storage_setChoices, hfound]
      rfl
    · rw [bufferPoolFetchPage, Storage.bpm_withOutcomes, hfound]
      rfl
  | none =>
    have hloaded := @Follows.bind _ _ _ _ _ _ _ _ _ _ _
      (fun victim u => if victim < 0 then some (none, u)
        else if 0 ≤ u.storage.bpm.diskFd then
          (vfs.readPageOrFormat u pageId).map fun read =>
            (some victim.toNat, read.2.setStorage (read.2.storage.load victim.toNat pageId read.1))
        else some (some victim.toNat,
          u.setStorage (u.storage.load victim.toNat pageId (slottedPageInit pageId .row))))
      (fun victim st => if victim < 0 then (none, st)
        else if 0 ≤ st.bpm.diskFd then
          (some victim.toNat, ({ st with host := (readPageOrFormat st.host pageId).2 } : Storage).load
            victim.toNat pageId (readPageOrFormat st.host pageId).1)
        else (some victim.toNat, st.load victim.toNat pageId (slottedPageInit pageId .row)))
      (fun frame frame' u' => frame = frame' ∧ idle u'.ctx) (h.follows_victim hidle)
      fun victim victim' u' hvictim => by
        obtain ⟨rfl, hidle'⟩ := hvictim
        by_cases hnone : victim < 0
        · simp only [if_pos hnone]
          exact .done ⟨rfl, hidle'⟩
        · simp only [if_neg hnone]
          exact h.follows_load hidle' victim.toNat pageId
    refine hloaded.congr (fun choices => ?_) fun reads writes => ?_
    · rw [VfsBackend.bufferPoolFetchPage, VfsStorage.storage_setChoices, hfound]
      rfl
    · rw [bufferPoolFetchPage, Storage.bpm_withOutcomes, hfound]
      rfl

/-- Every dirty page is written back. -/
theorem follows_flushAll (hidle : idle u.ctx) (hdistinct : u.storage.bpm.DistinctPages)
    (hlimit : u.storage.bpm.poolSize ≤ limit) :
    Follows VfsStorage.storage u (fun u => (vfs.bufferPoolFlushAll u).map fun u => ((), u))
      (fun st => ((), bufferPoolFlushAll st))
      fun _ _ u' => idle u'.ctx := by
  by_cases hdirty : u.storage.bpm.frames.any fun frame => frame.pageId ≠ invalidPageId ∧ frame.isDirty
  · have hlogged := Follows.after Storage.flushWal (fun reads writes => u.storage.flushWal_withOutcomes reads writes)
      (h.flush (u.setStorage u.storage.flushWal) hidle (u.storage.flushWal_spec.1.symm ▸ hdistinct)
        (u.storage.flushWal_spec.1.symm ▸ hlimit))
    refine hlogged.congr (fun choices => ?_) fun reads writes => ?_
    · rw [VfsBackend.bufferPoolFlushAll]
      exact congrArg (fun u => (vfs.flushFrames u).map fun u => ((), u)) (if_pos hdirty)
    · rw [bufferPoolFlushAll]
      exact congrArg (fun st => ((), Storage.flushFrames st)) (if_pos hdirty)
  · refine (h.flush u hidle hdistinct hlimit).congr (fun choices => ?_) fun reads writes => ?_
    · rw [VfsBackend.bufferPoolFlushAll]
      exact congrArg (fun u => (vfs.flushFrames u).map fun u => ((), u)) (if_neg hdirty)
    · rw [bufferPoolFlushAll]
      exact congrArg (fun st => ((), Storage.flushFrames st)) (if_neg hdirty)

end SequentialVfs

/-! ## Runs -/

/-- The answer comes with the state after the operation. -/
theorem PoolOp.answer_snd (op : PoolOp) (st : Storage) : (op.answer st).2 = op.apply st := by
  cases op <;> rfl

/-- The storage without the outcomes of the coming reads and writes. -/
def Storage.settled (st : Storage) : Storage := st.withOutcomes [] []

/-- Changing a page uses up no outcome. -/
theorem modifyPinnedPage_withOutcomes (st : Storage) (pageId : ℕ) (change : Page → Page)
    (reads writes : List IoOutcome) :
    modifyPinnedPage (st.withOutcomes reads writes) pageId change =
      (modifyPinnedPage st pageId change).withOutcomes reads writes := by
  rw [modifyPinnedPage, modifyPinnedPage, Storage.bpm_withOutcomes]
  cases st.bpm.frameIndex pageId with
  | none => rfl
  | some i =>
    dsimp only
    split_ifs <;> rfl

/-- Releasing a page uses up no outcome. -/
theorem bufferPoolUnpinPage_withOutcomes (st : Storage) (pageId : ℕ) (isDirty : Bool) (hint : BufferPoolHint)
    (reads writes : List IoOutcome) :
    bufferPoolUnpinPage (st.withOutcomes reads writes) pageId isDirty hint =
      (bufferPoolUnpinPage st pageId isDirty hint).withOutcomes reads writes := by
  rw [bufferPoolUnpinPage, bufferPoolUnpinPage, Storage.bpm_withOutcomes]
  cases st.bpm.frameIndex pageId with
  | none => rfl
  | some i =>
    dsimp only
    split_ifs <;> rfl

namespace SequentialVfs

variable {κ χ : Type} {vfs : VfsBackend κ χ} {limit : ℕ} {idle : κ → Prop} (h : SequentialVfs vfs limit idle)
  {u : VfsStorage κ χ} {st : Storage}

include h in
/-- One operation. -/
theorem follows_answer (hidle : idle u.ctx) (hdistinct : u.storage.bpm.DistinctPages)
    (hlimit : u.storage.bpm.poolSize ≤ limit) (op : PoolOp) :
    Follows VfsStorage.storage u (vfs.answer op) op.answer
      fun answer answer' u' => answer = answer' ∧ idle u'.ctx := by
  cases op with
  | fetch pageId =>
    exact @Follows.map _ _ _ _ _ _ _ _ _ _ _ (fun frame u => (PoolAnswer.frame frame, u))
      (fun frame st => (PoolAnswer.frame frame, st)) _ (h.follows_fetch hidle pageId)
      fun _ _ _ hframe => .done ⟨congrArg PoolAnswer.frame hframe.1, hframe.2⟩
  | modify pageId change =>
    exact .change (fun st => modifyPinnedPage st pageId change)
      (fun _ _ => modifyPinnedPage_withOutcomes _ _ _ _ _) ⟨rfl, hidle⟩
  | unpin pageId isDirty hint =>
    exact .change (fun st => bufferPoolUnpinPage st pageId isDirty hint)
      (fun _ _ => bufferPoolUnpinPage_withOutcomes _ _ _ _ _ _) ⟨rfl, hidle⟩
  | flushPage pageId =>
    exact @Follows.map _ _ _ _ _ _ _ _ _ _ _ (fun res u => (PoolAnswer.status res, u))
      (fun res st => (PoolAnswer.status res, st)) _ (h.follows_flushPage hidle pageId)
      fun _ _ _ hres => .done ⟨congrArg PoolAnswer.status hres.1, hres.2⟩
  | flushAll =>
    have hflushed := @Follows.map _ _ _ _ _ _ _ _ _ _ _ (fun _ u => (PoolAnswer.done, u))
      (fun _ st => (PoolAnswer.done, st)) (fun answer answer' u' => answer = answer' ∧ idle u'.ctx)
      (h.follows_flushAll hidle hdistinct hlimit) fun _ _ _ hflushed => .done ⟨rfl, hflushed⟩
    refine hflushed.congr (fun choices => ?_) fun _ _ => rfl
    rw [Option.map_map]
    rfl

/-- The storage when an operation begins does not depend on earlier outcomes. -/
theorem storage_withOutcomes (hsame : u.storage.settled = st.settled) (step : VfsStep χ)
    (reads writes : List IoOutcome) :
    (step.storage u).storage.withOutcomes reads writes =
      PoolStep.storage ⟨step.op, reads, writes, step.walSyncs⟩ st :=
  (congrArg (PoolStep.storage ⟨step.op, reads, writes, step.walSyncs⟩) hsame :)

include h in
/-- A run over the backend is a run of the operations made at once. -/
theorem run_refines (hsame : u.storage.settled = st.settled) (hidle : idle u.ctx) (hsound : st.bpm.Sound)
    (hsmall : st.bpm.poolSize < 2 ^ 31) (hlimit : st.bpm.poolSize ≤ limit)
    {steps : List (VfsStep χ)} (hpages : ∀ step ∈ steps, step.op.FetchesPages)
    {answers : List PoolAnswer} {final : VfsStorage κ χ} (hrun : vfs.run u steps = some (answers, final)) :
    idle final.ctx ∧ ∃ poolSteps : List PoolStep,
      poolSteps.map PoolStep.call = steps.map VfsStep.call ∧
        (st.run poolSteps).1 = answers ∧ (st.run poolSteps).2.settled = final.storage.settled := by
  induction steps generalizing u st answers with
  | nil =>
    cases hrun
    exact ⟨hidle, [], rfl, rfl, hsame.symm⟩
  | cons step steps ih =>
    obtain ⟨⟨first, mid⟩, hfirst, hrest⟩ := Option.bind_eq_some_iff.mp hrun
    obtain ⟨⟨later, last⟩, hlater, heq⟩ := Option.map_eq_some_iff.mp hrest
    obtain ⟨rfl, rfl⟩ := Prod.mk.inj heq
    have hbpm : u.storage.bpm = st.bpm := (congrArg Storage.bpm hsame :)
    have hdistinct : u.storage.bpm.DistinctPages := hbpm ▸ hsound.distinct
    obtain ⟨b, u', rest, reads, writes, rfl, ⟨rfl, hidle'⟩, hmodel⟩ :=
      (h.follows_answer (u := step.storage u) hidle hdistinct (hbpm ▸ hlimit) step.op).refines
        step.choices first mid hfirst
    have hanswer := hmodel [] []
    rw [List.append_nil, List.append_nil, storage_withOutcomes hsame] at hanswer
    let poolStep : PoolStep := ⟨step.op, reads, writes, step.walSyncs⟩
    have hafter : step.op.apply (poolStep.storage st) = u'.storage.settled := by
      rw [← PoolOp.answer_snd]
      exact congrArg Prod.snd hanswer
    have hfetches : poolStep.op.FetchesPages := hpages step List.mem_cons_self
    obtain ⟨hsound', hsize, -⟩ := hsound.step hsmall hfetches
    rw [hafter] at hsound' hsize
    have hnext : (VfsStorage.setChoices u' rest).storage.settled = u'.storage.settled.settled := rfl
    obtain ⟨hlast, poolSteps, hops, hanswers, hfinal⟩ := ih hnext hidle' hsound' (hsize.trans_lt hsmall)
      (hsize.trans_le hlimit) (fun other hother => hpages other (List.mem_cons_of_mem _ hother)) hlater
    refine ⟨hlast, poolStep :: poolSteps, ?_, ?_, ?_⟩
    · rw [List.map_cons, List.map_cons, hops]
      rfl
    · rw [Storage.run]
      dsimp only
      rw [hanswer]
      exact congrArg (first :: ·) hanswers
    · rw [Storage.run]
      dsimp only
      rw [hanswer]
      exact hfinal

include h in
/-- A run of the operations made at once is a run over the backend. -/
theorem run_realizes (hsame : u.storage.settled = st.settled) (hidle : idle u.ctx) (hsound : st.bpm.Sound)
    (hsmall : st.bpm.poolSize < 2 ^ 31) (hlimit : st.bpm.poolSize ≤ limit)
    {poolSteps : List PoolStep}
    (hpages : ∀ step ∈ poolSteps, step.op.FetchesPages) :
    ∃ (steps : List (VfsStep χ)) (final : VfsStorage κ χ),
      steps.map VfsStep.call = poolSteps.map PoolStep.call ∧
        vfs.run u steps = some ((st.run poolSteps).1, final) ∧
          final.storage.settled = (st.run poolSteps).2.settled := by
  induction poolSteps generalizing u st with
  | nil => exact ⟨[], u, rfl, rfl, hsame⟩
  | cons poolStep poolSteps ih =>
    obtain ⟨op, reads, writes, walSyncs⟩ := poolStep
    have hbpm : u.storage.bpm = st.bpm := (congrArg Storage.bpm hsame :)
    have hdistinct : u.storage.bpm.DistinctPages := hbpm ▸ hsound.distinct
    obtain ⟨choices, a, b, u', reads', writes', ⟨rfl, hidle'⟩, hmodel, hbackend⟩ :=
      (h.follows_answer (u := VfsStep.storage ⟨op, [], walSyncs⟩ u) hidle hdistinct
        (hbpm ▸ hlimit) op).realizes reads writes
    rw [storage_withOutcomes hsame] at hmodel
    have hafter : op.apply (PoolStep.storage ⟨op, reads, writes, walSyncs⟩ st) =
        u'.storage.withOutcomes reads' writes' := by
      rw [← PoolOp.answer_snd]
      exact congrArg Prod.snd hmodel
    obtain ⟨hsound', hsize, -⟩ := hsound.step hsmall (hpages _ List.mem_cons_self)
    rw [hafter] at hsound' hsize
    have hnext : (VfsStorage.setChoices u' []).storage.settled = (u'.storage.withOutcomes reads' writes').settled := rfl
    obtain ⟨steps, final, hops, hrun, hfinal⟩ :=
      ih hnext hidle' hsound' (hsize.trans_lt hsmall) (hsize.trans_le hlimit)
      fun other hother => hpages other (List.mem_cons_of_mem _ hother)
    refine ⟨⟨op, choices, walSyncs⟩ :: steps, final, ?_, ?_, ?_⟩
    · rw [List.map_cons, List.map_cons, hops]
      rfl
    · have hfirst := hbackend []
      rw [List.append_nil] at hfirst
      rw [VfsBackend.run]
      change (vfs.answer op ((VfsStep.storage ⟨op, [], walSyncs⟩ u).setChoices choices)).bind _ = _
      rw [hfirst, Option.bind_some]
      dsimp only
      rw [hrun, Storage.run]
      dsimp only
      rw [hmodel]
      rfl
    · rw [Storage.run]
      dsimp only
      rw [hmodel]
      exact hfinal

include h in
/-- The runs over the backend are those of the operations made at once. -/
theorem runs (hsound : st.bpm.Sound) (hsmall : st.bpm.poolSize < 2 ^ 31) (hlimit : st.bpm.poolSize ≤ limit)
    {calls : List (PoolOp × List IoOutcome)} (hpages : ∀ call ∈ calls, call.1.FetchesPages) :
    (∀ steps answers final, steps.map VfsStep.call = calls → vfs.run (vfs.init st) steps = some (answers, final) →
      idle final.ctx ∧ ∃ poolSteps : List PoolStep, poolSteps.map PoolStep.call = calls ∧
        (st.run poolSteps).1 = answers ∧ (st.run poolSteps).2.settled = final.storage.settled) ∧
    ∀ poolSteps : List PoolStep, poolSteps.map PoolStep.call = calls →
      ∃ (steps : List (VfsStep χ)) (final : VfsStorage κ χ), steps.map VfsStep.call = calls ∧
        vfs.run (vfs.init st) steps = some ((st.run poolSteps).1, final) ∧
          final.storage.settled = (st.run poolSteps).2.settled := by
  refine ⟨fun steps answers final hcalls hrun => ?_, fun poolSteps hcalls => ?_⟩
  · have hfetches : ∀ step ∈ steps, step.op.FetchesPages := fun step hstep =>
      hpages step.call (hcalls ▸ List.mem_map_of_mem hstep)
    obtain ⟨hidle, poolSteps, hsame, hresult⟩ :=
      h.run_refines (u := vfs.init st) rfl h.init hsound hsmall hlimit hfetches
      hrun
    exact ⟨hidle, poolSteps, hsame.trans hcalls, hresult⟩
  · have hfetches : ∀ step ∈ poolSteps, step.op.FetchesPages := fun step hstep =>
      hpages step.call (hcalls ▸ List.mem_map_of_mem hstep)
    obtain ⟨steps, final, hsame, hresult⟩ :=
      h.run_realizes (u := vfs.init st) rfl h.init hsound hsmall hlimit hfetches
    exact ⟨steps, final, hsame.trans hcalls, hresult⟩

end SequentialVfs

end FtsUring
