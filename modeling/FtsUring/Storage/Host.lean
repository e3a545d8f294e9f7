import FtsUring.Foundation.ByteFields
import Mathlib.Data.List.Basic
import Mathlib.Data.Int.Notation

/-!
# The operating system below the storage engine

A shard owns a data file and a write-ahead log file. Every call that moves bytes can fail,
move only a part, or complete; the outcomes of the calls to come are queued per kind of
call, and a call whose queue is empty completes. Fault-free execution is thus the case of
empty queues.
-/

namespace FtsUring

open Foundation

/-- What happens to one read or write. -/
inductive IoOutcome
  | error
  | short (moved : ℕ)
  | full
  deriving DecidableEq, Repr

/-- The bytes moved by a call on `count` bytes; a short call moves fewer than asked. -/
def IoOutcome.transferred : IoOutcome → ℕ → Option ℕ
  | .error, _ => none
  | .short moved, count => some (min moved (count - 1))
  | .full, count => some count

/-- The files of one shard and the queued outcomes of the coming system calls. -/
structure Host where
  dataFile : List UInt8
  walFile : List UInt8
  pageReads : List IoOutcome
  pageWrites : List IoOutcome
  walReads : List IoOutcome
  walWrites : List IoOutcome
  walSyncs : List IoOutcome
  deriving DecidableEq, Repr

/-- Two new files and no faults to come. -/
def Host.empty : Host where
  dataFile := []
  walFile := []
  pageReads := []
  pageWrites := []
  walReads := []
  walWrites := []
  walSyncs := []

/-- No queued call fails or moves fewer bytes than asked. -/
structure Host.FaultFree (host : Host) : Prop where
  pageReads : host.pageReads = []
  pageWrites : host.pageWrites = []
  walWrites : host.walWrites = []
  walSyncs : host.walSyncs = []

/-- The file after `pwrite`: a write past the end fills the gap with zero bytes. -/
def pwriteFile (file : List UInt8) (offset : ℕ) (data : List UInt8) : List UInt8 :=
  if data = [] then file
  else
    file.take offset ++ List.replicate (offset - file.length) 0 ++ data ++
      file.drop (offset + data.length)

/-- `write` on the log file, which is opened in append mode; a negative result is an error. -/
def Host.appendWal (host : Host) (walFd : ℤ) (data : List UInt8) : ℤ × Host :=
  if walFd < 0 then (-1, host)
  else
    match (host.walWrites.headD .full).transferred data.length with
    | none => (-1, { host with walWrites := host.walWrites.tail })
    | some moved =>
      (moved, { host with
        walFile := host.walFile ++ data.take moved
        walWrites := host.walWrites.tail })

/-- `fdatasync` on the log file. -/
def Host.syncWal (host : Host) : ℤ × Host :=
  let host' := { host with walSyncs := host.walSyncs.tail }
  match host.walSyncs.headD .full with
  | .full => (0, host')
  | _ => (-1, host')

/-! ## What a write leaves in the file -/

/-- The size of the file after a write. -/
theorem length_pwriteFile (file : List UInt8) (offset : ℕ) {data : List UInt8} (hdata : data ≠ []) :
    (pwriteFile file offset data).length = max file.length (offset + data.length) := by
  simp only [pwriteFile, if_neg hdata, List.length_append, List.length_take, List.length_replicate,
    List.length_drop]
  omega

/-- Bytewise view of a write. -/
theorem getElem?_pwriteFile (file : List UInt8) (offset : ℕ) {data : List UInt8} (hdata : data ≠ [])
    (i : ℕ) :
    (pwriteFile file offset data)[i]? =
      if offset ≤ i ∧ i < offset + data.length then data[i - offset]?
      else if i < file.length then file[i]?
      else if i < offset then some 0 else none := by
  simp only [pwriteFile, if_neg hdata, List.getElem?_append, List.length_append, List.length_take,
    List.length_replicate, List.getElem?_take, List.getElem?_replicate, List.getElem?_drop]
  split_ifs <;> first
    | rfl
    | omega
    | (congr 1; omega)
    | (rw [List.getElem?_eq_none (by omega)])

/-- The written range reads back. -/
theorem slice_pwriteFile_self (file : List UInt8) (offset : ℕ) (data : List UInt8) :
    slice (pwriteFile file offset data) offset data.length = data := by
  by_cases hdata : data = []
  · simp [hdata, slice]
  apply List.ext_getElem?
  intro i
  rw [getElem?_slice, getElem?_pwriteFile _ _ hdata]
  by_cases hi : i < data.length
  · rw [if_pos hi, if_pos (by omega), Nat.add_sub_cancel_left]
  · rw [if_neg hi, List.getElem?_eq_none (by omega)]

/-- A range inside the file that the write does not touch keeps its bytes. -/
theorem slice_pwriteFile_of_disjoint (file : List UInt8) (offset : ℕ) (data : List UInt8)
    (start count : ℕ) (hfile : start + count ≤ file.length)
    (h : start + count ≤ offset ∨ offset + data.length ≤ start) :
    slice (pwriteFile file offset data) start count = slice file start count := by
  by_cases hdata : data = []
  · rw [pwriteFile, if_pos hdata]
  apply List.ext_getElem?
  intro i
  rw [getElem?_slice, getElem?_slice, getElem?_pwriteFile _ _ hdata]
  by_cases hi : i < count
  · rw [if_pos hi, if_pos hi, if_neg (by omega), if_pos (by omega)]
  · rw [if_neg hi, if_neg hi]

end FtsUring
