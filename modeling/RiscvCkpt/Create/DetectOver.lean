import RiscvCkpt.Create.Ranges

/-! Closing a checkpoint: `detectOver` decides whether the interval is over and
then turns what was recorded into the saved ranges and first loads. -/
namespace RiscvCkpt

open MachineInt

namespace CkptInfo

/-- `addAddrInfo(addr, 1, exist)` for every address of a list. -/
def bookAddrs (addrs : List Nat) (state : RegionMap × (Nat → UInt8)) : RegionMap × (Nat → UInt8) :=
  addrs.foldl (fun state addr => addAddrInfo state.1 addr 1 state.2) state

/-- The pages that the first loop of `detectOver` books for a call with output:
from the page of the buffer to a page behind its end. -/
def bufferPages (info : SyscallInfo) : List Nat :=
  if info.data.length < 1 then []
  else
    let base := pageOf info.bufaddr
    let addr := info.bufaddr + info.data.length + 4096
    (List.range ((addr - base) / 4096 + 1)).map fun i => base + 4096 * i

def firstloadPages (info : FirstLoadInfo) : List Nat :=
  let t1 := pageOf info.addr
  if t1 + 4096 < info.addr + 8 then [t1, t1 + 4096] else [t1]

/-- `textend`: the end of the last text range, held in an `int`, as it enters
the comparisons with addresses. -/
def textend (textrange : List CodeRange) : Nat :=
  uint64 (int32 (textrange.getLastD ⟨0, 0⟩).stop)

/-- The part of `detectOver` behind its test. -/
def close (exist : Nat → UInt8) (info : CkptInfo) (exit_place exit_pc : Nat) : CkptInfo :=
  let packed := info.getFistloads
  let preAccess := (bookAddrs (packed.firstloads.flatMap firstloadPages)
    (bookAddrs (info.sysinfos.flatMap bufferPages) (info.preAccess, exist))).1
  let textrange := (getTextRange info.textAccess info.textrange).1
  let memrange := (getMemRange preAccess info.memrange).1
  { packed with
    exit_pc := exit_pc
    simNums := uint64 ((exit_place : Int) - info.startnum)
    preAccess := preAccess
    textrange := textrange
    memrange := trimOverlap (textend textrange) memrange }

theorem close_sysinfos (exist : Nat → UInt8) (info : CkptInfo) (n pc : Nat) :
    (info.close exist n pc).sysinfos = info.sysinfos := rfl

/-- `CkptInfo::detectOver`: the closed checkpoint, or `none` if it is not over. -/
def detectOver (exist : Nat → UInt8) (info : CkptInfo) (exit_place exit_pc : Nat) :
    Option CkptInfo :=
  if exit_place ≥ (info.startnum + info.length) % 2 ^ 64 then some
    (info.close exist exit_place exit_pc)
  else none

end CkptInfo

end RiscvCkpt
