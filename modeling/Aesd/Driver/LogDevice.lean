import Aesd.Driver.ReadBack

/-! What the device is for its users: a log of commands, of which the last
ones can be read, and a position for each open file. There is no ring, no
memory and no word of a fixed width here. -/
namespace Aesd
open Kernel Execution CommandLog

/-- `held` says that the lock was taken by a write that never gave it back. -/
structure LogDevice where
  log : WriteLog
  held : Bool
  position : Nat → Nat

namespace LogDevice

def initial : LogDevice := ⟨Log.empty, false, fun _ => 0⟩

def move (device : LogDevice) (fd position : Nat) : LogDevice :=
  { device with position := fun other => if other = fd then position else device.position other }

/-- The stored commands by slot, as the numbers of the seek call name them. -/
def bySlot (device : LogDevice) : List (List Byte) :=
  Ring.bySlot aesdcharMaxWriteOperationsSupported device.log.commands

/-- A read gives what is left of the command at the position of the file, up
to the count. -/
def read (fd : Nat) (call : ReadCall) (device : LogDevice) : Reply × LogDevice :=
  let piece := (Segments.rest (lastCommands device.log) (device.position fd)).take call.count
  if call.hasBuf = false ∨ call.copyFails = true ∧ piece ≠ [] then (⟨-EFAULT, []⟩, device)
  else (⟨piece.length, piece⟩, device.move fd (device.position fd + piece.length))

/-- A write accepts what can be copied. The one that is refused its memory is
the last one to get the lock. -/
def write (call : WriteCall) (device : LogDevice) : Except Stop (Reply × LogDevice) :=
  match call.buf with
  | none => .ok (⟨-EFAULT, []⟩, device)
  | some buf =>
      if call.interrupted then .ok (⟨-ERESTARTSYS, []⟩, device)
      else if device.held then .error .blocked
      else if call.granted = false ∧ 0 < device.log.pending.length + buf.length then
        .ok (⟨-ENOMEM, []⟩, { device with held := true })
      else
        .ok (⟨(buf.take call.copied).length, []⟩,
          { device with log := device.log.accept (buf.take call.copied) })

/-- The end of the file is the end of everything that was ever written. -/
def seekTarget (fd : Nat) (off whence : Int) (device : LogDevice) : Option Int :=
  if whence = SEEK_SET then some off
  else if whence = SEEK_CUR then some (device.position fd + off)
  else if whence = SEEK_END then some (device.log.contents.length + off)
  else none

def llseek (fd : Nat) (off whence : Int) (device : LogDevice) : Reply × LogDevice :=
  match device.seekTarget fd off whence with
  | none => (⟨-EINVAL, []⟩, device)
  | some target =>
      if 0 ≤ target ∧ target < 2 ^ 63 then (⟨target, []⟩, device.move fd target.toNat)
      else (⟨-EINVAL, []⟩, device)

/-- The seek to a byte of the command in a slot, or to the one behind it. -/
def seekCommand (fd : Nat) (seekCmd : AesdSeekto) (device : LogDevice) : Reply × LogDevice :=
  match device.bySlot[seekCmd.writeCmd.toNat]? with
  | none => (⟨-EINVAL, []⟩, device)
  | some command =>
      if command.length < seekCmd.writeCmdOffset.toNat then (⟨-EINVAL, []⟩, device)
      else (⟨0, []⟩, device.move fd
        ((device.bySlot.take seekCmd.writeCmd.toNat).flatten.length + seekCmd.writeCmdOffset.toNat))

def ioctl (fd : Nat) (call : IoctlCall) (device : LogDevice) : Except Stop (Reply × LogDevice) :=
  if call.cmd ≠ AESDCHAR_IOCSEEKTO then .ok (⟨-EINVAL, []⟩, device)
  else match call.arg with
  | none => .ok (⟨-EINVAL, []⟩, device)
  | some seekCmd =>
      if aesdcharMaxWriteOperationsSupported < seekCmd.writeCmd.toNat then .ok (⟨-EINVAL, []⟩, device)
      else if call.interrupted then .ok (⟨-ERESTARTSYS, []⟩, device)
      else if device.held then .error .blocked
      else .ok (device.seekCommand fd seekCmd)

def exec : Machine Stop Op Reply LogDevice
  | .openFile fd, device => .ok (⟨0, []⟩, device.move fd 0)
  | .release _, device => .ok (⟨0, []⟩, device)
  | .read fd call, device => .ok (device.read fd call)
  | .write _ call, device => device.write call
  | .llseek fd off whence, device => .ok (device.llseek fd off whence)
  | .ioctl fd call, device => device.ioctl fd call

variable {device : LogDevice} {fd position : Nat} {call : ReadCall} {piece : List Byte}

@[simp] theorem move_position (file : Nat) :
    (device.move fd position).position file = if file = fd then position else device.position file := rfl

theorem read_failed (h : call.hasBuf = false ∨ call.copyFails = true ∧
    (Segments.rest (lastCommands device.log) (device.position fd)).take call.count ≠ []) :
    device.read fd call = (⟨-EFAULT, []⟩, device) := by
  rw [read]
  exact if_pos h

theorem read_served (hBuf : call.hasBuf = true)
    (hPiece : (Segments.rest (lastCommands device.log) (device.position fd)).take call.count = piece)
    (hServed : call.copyFails = false ∨ piece = []) :
    device.read fd call = (⟨piece.length, piece⟩, device.move fd (device.position fd + piece.length)) := by
  rw [read, hPiece]
  refine if_neg ?_
  rintro (hNone | ⟨hFails, hSome⟩)
  · rw [hBuf] at hNone
    cases hNone
  · rcases hServed with hCopied | hNothing
    · rw [hFails] at hCopied
      cases hCopied
    · exact hSome hNothing

end LogDevice

/-- How many bytes a call offers to the log. -/
def Op.offered : Op → Nat
  | .write _ call => (call.buf.getD []).length
  | _ => 0

end Aesd
