import Aesd.Driver.CircularBuffer
import Aesd.Semantics.Execution

/-! The file operations of the character device and its set-up and clean-up.
Each call carries what the environment decides about it. -/
namespace Aesd
open Kernel Word Memory Execution

def newline : Byte := 10

structure AesdDev where
  aesdCb : AesdCircularBuffer
  mxLock : Bool
  tmpBuf : Ptr
  tmpSize : Nat
  bufferSize : Nat

/-- The device and the memory that the module has allocated. -/
structure World where
  heap : Heap Byte
  dev : AesdDev

/-- An open file. Its private data is always the one device. -/
structure File where
  fPos : Int
  deriving DecidableEq, Repr

/-- Set-up, with the results of registering the device numbers and of adding
the character device. -/
def aesdInitModule (region setup : Int) (world : World) : Int × World :=
  if region < 0 then (region, world)
  else (setup, { world with dev := {
    aesdCb := aesdCircularBufferInit
    mxLock := false
    tmpBuf := .null
    tmpSize := 0
    bufferSize := 0 } })

/-- The device after a successful set-up; static storage was zero before. -/
def World.initial : World :=
  (aesdInitModule 0 0 ⟨Heap.empty, ⟨aesdCircularBufferInit, false, .null, 0, 0⟩⟩).2

/-- Nonzero where a signal arrived first. A lock that is held is waited for,
and in a device where nothing is in progress nobody gives it back. -/
def mutexLockInterruptible (interrupted : Bool) (dev : AesdDev) : Except Stop (Bool × AesdDev) :=
  if interrupted then .ok (true, dev)
  else if dev.mxLock then .error .blocked
  else .ok (false, { dev with mxLock := true })

def mutexUnlock (dev : AesdDev) : AesdDev := { dev with mxLock := false }

/-- `filp->private_data` is set; the position of a new file is zero. -/
def aesdOpen : Int × File := (0, ⟨0⟩)

def aesdRelease : Int := 0

structure ReadCall where
  hasBuf : Bool
  count : Nat
  copyFails : Bool
  deriving DecidableEq, Repr

/-- The result, the bytes that arrived in user space, and the file. -/
def aesdRead (call : ReadCall) (world : World) (filp : File) : Except Stop (Int × List Byte × File) :=
  if call.hasBuf = false then .ok (-EFAULT, [], filp)
  else do
    let startEntry ← aesdCircularBufferFindEntryOffsetForFpos world.dev.aesdCb (unsigned64 filp.fPos)
    match startEntry with
    | none => return (0, [], filp)
    | some (index, startEntryOff) =>
        let entry := world.dev.aesdCb.slot index
        let available := unsigned64 (entry.size - startEntryOff)
        let readLength := if available > call.count then call.count else available
        let copied ← copyToUser entry.buffptr startEntryOff readLength call.copyFails world.heap
        match copied with
        | none => return (-EFAULT, [], filp)
        | some bytes => return (readLength, bytes, { filp with fPos := signed64 (filp.fPos + readLength) })

/-- `buf` is the user buffer, absent for a null pointer, and its length the
count of the call. The kernel passes counts far below the width of a word. -/
structure WriteCall where
  buf : Option (List Byte)
  interrupted : Bool
  granted : Bool
  copied : Nat
  junk : Nat → Byte

/-- Extend the pending bytes, or start them, by what can be copied. Nothing
is returned when no memory was granted. -/
def fillTmpBuf (call : WriteCall) (buf : List Byte) (world : World) :
    Except Stop (Option Nat × World) := do
  let dev := world.dev
  let count := buf.length
  if dev.tmpSize > 0 then
    let (tmpBuf, heap) ← krealloc call.granted call.junk dev.tmpBuf (dev.tmpSize + count) world.heap
    if tmpBuf = .null then
      return (none, ⟨heap, { dev with tmpBuf }⟩)
    let heap ← memset tmpBuf dev.tmpSize 0 count heap
    let (bytesMissing, heap) ← copyFromUser tmpBuf dev.tmpSize buf call.copied heap
    let retval := count - bytesMissing
    return (some retval, ⟨heap, { dev with tmpBuf, tmpSize := dev.tmpSize + retval }⟩)
  else
    let (tmpBuf, heap) := kmalloc call.granted call.junk count world.heap
    if tmpBuf = .null then
      return (none, ⟨heap, { dev with tmpBuf }⟩)
    let heap ← memset tmpBuf 0 0 count heap
    let (bytesMissing, heap) ← copyFromUser tmpBuf 0 buf call.copied heap
    let retval := count - bytesMissing
    return (some retval, ⟨heap, { dev with tmpBuf, tmpSize := retval }⟩)

/-- On a full buffer, free the string that the next entry displaces. -/
def freeOldest (world : World) : Except Stop World :=
  if world.dev.aesdCb.full then do
    let inPos := world.dev.aesdCb.inOffs
    let entry := world.dev.aesdCb.slot inPos
    let heap ← if entry.buffptr ≠ .null then kfree entry.buffptr world.heap else pure world.heap
    return ⟨heap, { world.dev with aesdCb := world.dev.aesdCb.setSlot inPos { entry with size := 0 } }⟩
  else .ok world

/-- Once a newline is pending, all pending bytes become one entry. -/
def commitTmpBuf (world : World) : Except Stop World := do
  let found ← memchr world.dev.tmpBuf newline world.dev.tmpSize world.heap
  if found then
    let world ← freeOldest world
    let newEntry : AesdBufferEntry := ⟨world.dev.tmpBuf, world.dev.tmpSize⟩
    let (_, aesdCb) := aesdCircularBufferAddEntry world.dev.aesdCb newEntry
    return { world with dev := { world.dev with aesdCb, tmpBuf := .null, tmpSize := 0 } }
  else return world

def aesdWrite (call : WriteCall) (world : World) : Except Stop (Int × World) :=
  match call.buf with
  | none => .ok (-EFAULT, world)
  | some buf => do
      let (failed, dev) ← mutexLockInterruptible call.interrupted world.dev
      if failed then
        return (-ERESTARTSYS, { world with dev })
      let (filled, world) ← fillTmpBuf call buf { world with dev }
      match filled with
      -- this return does not unlock
      | none => return (-ENOMEM, world)
      | some retval =>
          let world ← commitTmpBuf world
          let dev := mutexUnlock world.dev
          return (retval, { world with dev := { dev with
            bufferSize := unsigned64 (dev.bufferSize + retval) } })

def SEEK_SET : Int := 0
def SEEK_CUR : Int := 1
def SEEK_END : Int := 2

def aesdLlseek (off whence : Int) (world : World) (filp : File) : Int × File :=
  let newpos : Option Int :=
    if whence = SEEK_SET then some off
    else if whence = SEEK_CUR then some (signed64 (filp.fPos + off))
    else if whence = SEEK_END then some (signed64 (world.dev.bufferSize + off))
    else none
  match newpos with
  | none => (-EINVAL, filp)
  | some newpos => if newpos < 0 then (-EINVAL, filp) else (newpos, { filp with fPos := newpos })

structure AesdSeekto where
  writeCmd : UInt32
  writeCmdOffset : UInt32
  deriving DecidableEq, Repr

/-- The request code: read and write, eight bytes, magic number, number 1. -/
def AESDCHAR_IOCSEEKTO : Nat := 3 <<< 30 ||| 8 <<< 16 ||| 0x16 <<< 8 ||| 1

/-- `arg` is absent where the argument can not be copied. `stray` is what
lies in memory behind the array of entries. -/
structure IoctlCall where
  cmd : Nat
  arg : Option AesdSeekto
  interrupted : Bool
  stray : AesdBufferEntry

def AesdBufferEntry.populated (entry : AesdBufferEntry) : Bool :=
  entry.buffptr ≠ .null ∧ entry.size > 0

/-- `entry[index]` without a check of the index. -/
def IoctlCall.entryAt (call : IoctlCall) (buffer : AesdCircularBuffer) (index : Nat) : AesdBufferEntry :=
  if index < aesdcharMaxWriteOperationsSupported then buffer.slot index else call.stray

/-- Sum up the sizes from `index` on over the slots that are left. An
unpopulated slot sets the error and leaves this loop only. -/
def sumLoop (entryAt : Nat → AesdBufferEntry) : Nat → Nat → Int → Int × Int
  | 0, _, locOff => (0, locOff)
  | left + 1, index, locOff =>
      let entry := entryAt index
      if entry.populated then sumLoop entryAt left (index + 1) (signed64 (locOff + entry.size))
      else (-EINVAL, locOff)

/-- The seek itself, under the lock. -/
def seekTo (entryAt : Nat → AesdBufferEntry) (seekCmd : AesdSeekto) (filp : File) : Int × File :=
  let (retval, locOff) := sumLoop entryAt seekCmd.writeCmd.toNat 0 0
  let entry := entryAt seekCmd.writeCmd.toNat
  if entry.populated then
    if seekCmd.writeCmdOffset.toNat > entry.size then (-EINVAL, filp)
    else (retval, { filp with fPos := signed64 (locOff + seekCmd.writeCmdOffset.toNat) })
  else (-EINVAL, filp)

def aesdIoctl (call : IoctlCall) (world : World) (filp : File) : Except Stop (Int × World × File) :=
  if call.cmd ≠ AESDCHAR_IOCSEEKTO then .ok (-EINVAL, world, filp)
  else match call.arg with
  | none => .ok (-EINVAL, world, filp)
  | some seekCmd =>
      if seekCmd.writeCmd < 0 ∨ seekCmd.writeCmd.toNat > aesdcharMaxWriteOperationsSupported then
        .ok (-EINVAL, world, filp)
      else do
        let (failed, dev) ← mutexLockInterruptible call.interrupted world.dev
        if failed then
          return (-ERESTARTSYS, { world with dev }, filp)
        let (retval, filp) := seekTo (call.entryAt dev.aesdCb) seekCmd filp
        return (retval, { world with dev := mutexUnlock dev }, filp)

/-- Free every populated slot from `index` on. -/
def cleanupLoop : Nat → Nat → World → Except Stop World
  | 0, _, world => .ok world
  | left + 1, index, world => do
      let entry := world.dev.aesdCb.slot index
      if entry.size > 0 ∧ entry.buffptr ≠ .null then
        let heap ← kfree entry.buffptr world.heap
        let aesdCb := world.dev.aesdCb.setSlot index { entry with size := 0 }
        cleanupLoop left (index + 1) ⟨heap, { world.dev with aesdCb }⟩
      else cleanupLoop left (index + 1) world

def aesdCleanupModule (world : World) : Except Stop World :=
  cleanupLoop aesdcharMaxWriteOperationsSupported 0 world

/-- What can be read of an entry: the bytes its pointer and size name. -/
def AesdBufferEntry.bytes (entry : AesdBufferEntry) (heap : Heap Byte) : Except Stop (List Byte) :=
  load entry.buffptr 0 entry.size heap

namespace World

/-- The stored commands, read from `outOffs` in ring order. -/
def stored (world : World) : List (Except Stop (List Byte)) :=
  world.dev.aesdCb.entries.map fun entry => entry.bytes world.heap

/-- The bytes of `tmp_buf` below `tmp_size`. -/
def pending (world : World) : Except Stop (List Byte) :=
  load world.dev.tmpBuf 0 world.dev.tmpSize world.heap

def storedSize (world : World) : Nat := (world.dev.aesdCb.entries.map AesdBufferEntry.size).sum

end World

/-- The device together with the files that are open on it. -/
structure System where
  world : World
  file : Nat → File

def System.initial : System := ⟨World.initial, fun _ => ⟨0⟩⟩

def System.setFile (system : System) (fd : Nat) (filp : File) : System :=
  { system with file := fun other => if other = fd then filp else system.file other }

inductive Op where
  | openFile (fd : Nat)
  | release (fd : Nat)
  | read (fd : Nat) (call : ReadCall)
  | write (fd : Nat) (call : WriteCall)
  | llseek (fd : Nat) (off whence : Int)
  | ioctl (fd : Nat) (call : IoctlCall)

structure Reply where
  retval : Int
  data : List Byte
  deriving DecidableEq, Repr

/-- One whole operation on an open file. -/
def System.exec : Machine Stop Op Reply System
  | .openFile fd, system => .ok (⟨aesdOpen.1, []⟩, system.setFile fd aesdOpen.2)
  | .release _, system => .ok (⟨aesdRelease, []⟩, system)
  | .read fd call, system => do
      let (retval, data, filp) ← aesdRead call system.world (system.file fd)
      return (⟨retval, data⟩, system.setFile fd filp)
  | .write _ call, system => do
      let (retval, world) ← aesdWrite call system.world
      return (⟨retval, []⟩, { system with world })
  | .llseek fd off whence, system =>
      let (retval, filp) := aesdLlseek off whence system.world (system.file fd)
      .ok (⟨retval, []⟩, system.setFile fd filp)
  | .ioctl fd call, system => do
      let (retval, world, filp) ← aesdIoctl call system.world (system.file fd)
      return (⟨retval, []⟩, { system with world }.setFile fd filp)

end Aesd
