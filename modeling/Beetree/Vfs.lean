import Beetree.Codec
import Beetree.Trace

/-! The devices an engine runs on (`src/vfs.rs`). -/
namespace Beetree

/-- Positional access to the one backing file. -/
class Vfs (V : Type) where
  readExactAt : ℕ → ℕ → EStateM Fault V (List Byte)
  writeAllAt : ℕ → List Byte → EStateM Fault V Unit
  sync : EStateM Fault V Unit
  len : EStateM Fault V ℕ
  setLen : ℕ → EStateM Fault V Unit

/-- Cut or fill with zeros to the given length. -/
def resize (buf : List Byte) (len : ℕ) :
    List Byte := buf.take len ++ List.replicate (len - buf.length) 0

/-- Put bytes at an offset, filling any gap with zeros. -/
def writeAt (buf : List Byte) (off : ℕ) (data : List Byte) : List Byte :=
  let buf := if buf.length < off + data.length then resize buf (off + data.length) else buf
  buf.take off ++ data ++ buf.drop (off + data.length)

/-- The bytes at an offset, if the file reaches that far. -/
def readAt (buf : List Byte) (off len : ℕ) : Option (List Byte) :=
  if off + len ≤ buf.length then some ((buf.drop off).take len) else none

/-- What a crash does to one operation that has not been synced. -/
inductive Fate
  | drop
  | apply
  | zero
  | tear (seed : ℕ)
  deriving DecidableEq

/-- The history of a device, payloads included. -/
inductive LogEntry
  | write (off : ℕ) (data : List Byte)
  | setLen (len : ℕ)
  | syncOk
  | syncFailed (fates : List Fate)
  deriving DecidableEq

def LogEntry.isSync : LogEntry → Bool
  | syncOk => true
  | syncFailed _ => true
  | _ => false

/-- What becomes of a buffer when an operation meets its fate; sync entries meet none. -/
def LogEntry.apply (buf : List Byte) (fate : Fate) : LogEntry → Option (List Byte)
  | write off data =>
    match fate with
    | .drop => some buf
    | .apply => some (writeAt buf off data)
    | .zero => some (writeAt buf off (List.replicate data.length 0))
    | .tear seed => some (writeAt buf off (data.take (seed % (data.length + 1))))
  | setLen len => if fate = .drop then some buf else some (resize buf len)
  | syncOk => none
  | syncFailed _ => none

/-- Apply a window of operations. Where there are fewer fates than operations the rest is applied in
full, and all of it is for a sync that succeeds. -/
def applyWindow (all : Bool) : List Byte → List LogEntry → List Fate → Option (List Byte)
  | buf, [], _ => some buf
  | buf, entry :: window, fates => do
    let buf ← entry.apply buf (if all then .apply else fates.headD .apply)
    applyWindow all buf window fates.tail

/-- A device with a volatile write cache. Reads see `view`; `durable` is what a crash is certain to
leave. -/
structure FaultyVfs where
  view : List Byte
  durable : List Byte
  initial : List Byte
  log : List LogEntry
  windowStart : ℕ
  failSync : Option (ℕ × List Fate)
  deriving DecidableEq

namespace FaultyVfs

/-- A device that holds the given bytes, with an empty history. -/
def fromImage (image : List Byte) : FaultyVfs := ⟨image, image, image, [], 0, none⟩

def new : FaultyVfs := fromImage []

def window (v : FaultyVfs) : List LogEntry := v.log.drop v.windowStart

/-- Let a number of syncs through and make the next one fail. -/
def failNthSync (skip : ℕ) (fates : List Fate) (v : FaultyVfs) :
    FaultyVfs := { v with failSync := some (skip, fates) }

/-- Replay a history: the bytes that have been synced and the window after them. -/
def replay : List Byte → List LogEntry → List LogEntry → Option (List Byte × List LogEntry)
  | img, window, [] => some (img, window)
  | img, window, .syncOk :: log => do replay (← applyWindow true img window []) [] log
  | img, window, .syncFailed fates :: log => do replay (← applyWindow false img window fates) [] log
  | img, window, entry :: log => replay img (window ++ [entry]) log

/-- The file as a crash at a position of the history may leave it. -/
def crashImageAt (v : FaultyVfs) (pos : ℕ) (fates : List Fate) : Option (List Byte) :=
  if pos ≤ v.log.length then do
    let (img, window) ← replay v.initial [] (v.log.take pos)
    applyWindow false img window fates
  else none

/-- Two writes in one window must not touch the same byte. -/
def overlaps (off : ℕ) (data : List Byte) : LogEntry → Bool
  | .write o d => !(decide (off + data.length ≤ o) || decide (o + d.length ≤ off))
  | _ => false

def close (v : FaultyVfs) (entry : LogEntry) (durable : List Byte)
    (failSync : Option (ℕ × List Fate)) : FaultyVfs :=
  { v with
    durable := durable
    log := v.log ++ [entry]
    windowStart := v.log.length + 1
    failSync := failSync }

def syncAll (failSync : Option (ℕ × List Fate)) : EStateM Fault FaultyVfs Unit := fun v =>
  match applyWindow true v.durable v.window [] with
  | some durable => .ok () (v.close .syncOk durable failSync)
  | none => .error .panic v

instance : Vfs FaultyVfs where
  readExactAt off len v :=
    match readAt v.view off len with
    | some data => .ok data v
    | none => .error (.storage (.io .unexpectedEof)) v
  writeAllAt off data v :=
    if v.window.any (overlaps off data) then .error .panic v
    else .ok () { v with view := writeAt v.view off data, log := v.log ++ [.write off data] }
  sync v :=
    match v.failSync with
    | some (0, fates) =>
      match applyWindow false v.durable v.window fates with
      | some durable =>
        .error (.storage (.io .syncFailure)) (v.close (.syncFailed fates) durable none)
      | none => .error .panic v
    | some (skip + 1, fates) => syncAll (some (skip, fates)) v
    | none => syncAll none v
  len v := .ok v.view.length v
  setLen len v := .ok () { v with view := resize v.view len, log := v.log ++ [.setLen len] }

end FaultyVfs

structure IoStats where
  readOps : ℕ
  readBytes : ℕ
  writeOps : ℕ
  writeBytes : ℕ
  syncs : ℕ
  setLens : ℕ
  deriving DecidableEq

/-- A device with a tally of what is asked of it. -/
structure CountingVfs (V : Type) where
  inner : V
  stats : IoStats

namespace CountingVfs
variable {V : Type}

def new (inner : V) : CountingVfs V := ⟨inner, ⟨0, 0, 0, 0, 0, 0⟩⟩

def counted {α : Type} (tally : IoStats → IoStats) (m : EStateM Fault V α) :
    EStateM Fault (CountingVfs V) α := fun v =>
  match m v.inner with
  | .ok a inner => .ok a ⟨inner, tally v.stats⟩
  | .error f inner => .error f ⟨inner, tally v.stats⟩

instance [Vfs V] : Vfs (CountingVfs V) where
  readExactAt off len :=
    counted (fun s => { s with readOps := s.readOps + 1, readBytes := s.readBytes + len })
      (Vfs.readExactAt off len)
  writeAllAt off data :=
    counted (fun s =>
      { s with writeOps := s.writeOps + 1, writeBytes := s.writeBytes + data.length })
      (Vfs.writeAllAt off data)
  sync := counted (fun s => { s with syncs := s.syncs + 1 }) Vfs.sync
  len := counted id Vfs.len
  setLen len := counted (fun s => { s with setLens := s.setLens + 1 }) (Vfs.setLen len)

end CountingVfs
end Beetree
