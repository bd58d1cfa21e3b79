import Mathlib.Data.Finset.Sort
import Mathlib.Logic.Function.Basic
import RiscvCkpt.Base.FirstAccess

/-! The record that the simulator keeps for one pending checkpoint, and the
hooks that fill it: memory accesses, executed instructions and system calls.
Addresses and counters are natural numbers; the places where the source relies
on a machine width are written out. -/
namespace RiscvCkpt

/-- `#define AccessRange 8192`: memory accesses are booked in regions of this size. -/
def AccessRange : Nat := 8192

/-- `(addr >> AccessRangeBits) << AccessRangeBits`: the region that holds an address. -/
def regionOf (addr : Nat) : Nat := addr / AccessRange * AccessRange

theorem regionOf_le (addr : Nat) : regionOf addr ≤ addr := Nat.div_mul_le_self addr AccessRange

theorem lt_regionOf_add (addr : Nat) : addr < regionOf addr + AccessRange := by
  simp only [regionOf, AccessRange]
  omega

structure CodeRange where
  addr : Nat
  size : Nat
  deriving DecidableEq, Repr

/-- A load of which at least one byte was not accessed before. Bit `i` of
`first` says that byte `i` is such a byte; the other entries of `data` are
left unset by the source and never read. -/
structure LoadInfo where
  addr : Nat
  data : List UInt8
  first : Nat
  size : Nat
  deriving DecidableEq, Repr

structure FirstLoadInfo where
  addr : Nat
  data : List UInt8
  deriving DecidableEq, Repr

structure SyscallInfo where
  pc : Nat := 0
  num : Nat := 0
  ret : Nat := 0
  hasret : Bool := false
  bufaddr : Nat := 0
  data : List UInt8 := []
  params : List Nat := []
  deriving DecidableEq, Repr

/-- `map<uint64_t, uint8_t *>`: the keys present, and under each key the bytes
of the region it points to. -/
structure RegionMap where
  keys : Finset Nat
  region : Nat → Nat → UInt8

namespace RegionMap

def empty : RegionMap := ⟨∅, fun _ _ => 0⟩

def insert (regions : RegionMap) (key : Nat) (data : Nat → UInt8) : RegionMap :=
  ⟨Insert.insert key regions.keys, Function.update regions.region key data⟩

/-- The booking byte of an address. Absent regions count as never accessed. -/
def mark (regions : RegionMap) (b : Nat) : UInt8 :=
  if regionOf b ∈ regions.keys then regions.region (regionOf b) (b - regionOf b) else 0

def Marked (regions : RegionMap) (b : Nat) : Prop := regions.mark b ≠ 0

instance (regions : RegionMap) (b : Nat) : Decidable (regions.Marked b) :=
  inferInstanceAs (Decidable (_ ≠ _))

end RegionMap

/-- One of the four booking loops of `addAddrInfo`: `exist[off + i]` takes the
former mark of `data[idx + i]`, which is zero by assignment in a fresh region,
and the mark is set. -/
def markBytes (fresh : Bool) (data exist : Nat → UInt8) (idx off : Nat) :
    Nat → (Nat → UInt8) × (Nat → UInt8)
  | 0 => (data, exist)
  | n + 1 =>
      let (d, e) := markBytes fresh data exist idx off n
      (Function.update d (idx + n) 1,
        Function.update e (off + n) (if fresh then 0 else d (idx + n)))

/-- The part of `addAddrInfo` that books one region: find it or allocate a
zeroed one, then run the booking loop over `freshLen` or `knownLen` bytes. -/
def bookRegion (regions : RegionMap) (exist : Nat → UInt8) (key idx off freshLen knownLen : Nat) :
    RegionMap × (Nat → UInt8) :=
  if key ∈ regions.keys then
    let (d, e) := markBytes false (regions.region key) exist idx off knownLen
    (regions.insert key d, e)
  else
    let (d, e) := markBytes true (fun _ => 0) exist idx off freshLen
    (regions.insert key d, e)

/-- `CkptInfo::addAddrInfo`. The array `exist` is passed as the bytes its
pointer designates, so that entries beyond the array are visible here. An
access that crosses into the next region books its second part there. -/
def addAddrInfo (regions : RegionMap) (addr size : Nat) (exist : Nat → UInt8) :
    RegionMap × (Nat → UInt8) :=
  let base := regionOf addr
  let addr1 := base + AccessRange
  let len2 := if addr + size - 1 ≥ addr1 then addr + size - addr1 else 0
  let len1 := size - len2
  let (regions, exist) := bookRegion regions exist base (addr - base) 0 len1 len1
  if len2 ≠ 0 then
    -- the loop over a known second region runs to `len1`, not to `len2`
    bookRegion regions exist addr1 0 len1 len2 len1
  else (regions, exist)

/-- Everything the source keeps for one pending checkpoint, less the
instruction statistics and the file name, which only reach its text report. -/
structure CkptInfo where
  startnum : Nat
  length : Nat
  warmup : Nat
  pc : Nat
  npc : Nat
  intregs : List Nat
  fpregs : List Nat
  simNums : Nat := 0
  exit_pc : Nat := 0
  loads : List LoadInfo := []
  firstloads : List FirstLoadInfo := []
  memrange : List CodeRange := []
  textrange : List CodeRange := []
  sysinfos : List SyscallInfo := []
  preAccess : RegionMap := RegionMap.empty
  textAccess : Finset Nat := ∅

namespace CkptInfo

/-- The constructor: the start state is copied, nothing is recorded yet. -/
def create (startnum length warmup : Nat) (intregs fpregs : List Nat) (pc npc : Nat) : CkptInfo :=
  { startnum := startnum, length := length, warmup := warmup, intregs := intregs,
    fpregs := fpregs, pc := pc, npc := npc }

/-- The loop of `addload` over the bytes from the last to the first. It
collects the mask of first accesses and copies the bytes they load. -/
def firstMask (exist : Nat → UInt8) (data : List UInt8) (size : Nat) : Nat × List UInt8 :=
  (List.range size).foldr
    (fun i state =>
      let isFirst := state.1 * 2 % 256
      if exist i = 0 then (isFirst + 1, state.2.set i (data.getD i 0)) else (isFirst, state.2))
    (0, List.replicate 8 0)

/-- `CkptInfo::addload`. `stack` is what the uninitialised array `exist` holds. -/
def addload (stack : Nat → UInt8) (info : CkptInfo) (addr : Nat) (data : List UInt8) (size : Nat) :
    CkptInfo :=
  let (regions, exist) := addAddrInfo info.preAccess addr size stack
  let (isFirst, bytes) := firstMask exist data size
  if isFirst ≠ 0 then
    { info with
      preAccess := regions
      loads := info.loads ++ [{ addr := addr, data := bytes, first := isFirst, size := size }] }
  else { info with preAccess := regions }

def addstore (stack : Nat → UInt8) (info : CkptInfo) (addr size : Nat) : CkptInfo :=
  { info with preAccess := (addAddrInfo info.preAccess addr size stack).1 }

/-- `CkptInfo::addinst`. An instruction whose four bytes reach into the next
page also enters an address of that page. -/
def addinst (info : CkptInfo) (addr : Nat) : CkptInfo :=
  let t1 := addr / 4096 * 4096
  let text := insert addr info.textAccess
  { info with
    textAccess := if t1 + 4096 < addr + 4 then insert (addr + 4096) text else text }

/-- `CkptInfo::add_sysenter`. The call number arrives as a `uint32_t`. -/
def addSysenter (info : CkptInfo) (pc sysnum : Nat) (params : List Nat) : CkptInfo :=
  { info with
    sysinfos := info.sysinfos ++ [{ pc := pc, num := sysnum % 2 ^ 32, params := params }] }

/-- Change the last recorded system call, provided it was entered at `pc`. -/
def updateLast (info : CkptInfo) (pc : Nat) (change : SyscallInfo → SyscallInfo) : CkptInfo :=
  match info.sysinfos.getLast? with
  | none => info
  | some last =>
      if last.pc ≠ pc then info
      else { info with sysinfos := info.sysinfos.dropLast ++ [change last] }

def addSysret (info : CkptInfo) (pc : Nat) (hasret : Bool) (ret : Nat) : CkptInfo :=
  info.updateLast pc fun last => { last with ret := ret, hasret := hasret }

/-- `CkptInfo::add_sysexe`. Output data accumulate behind earlier output. -/
def addSysexe (info : CkptInfo) (pc ret bufaddr : Nat) (data : List UInt8) : CkptInfo :=
  info.updateLast pc fun last =>
    { last with ret := ret, bufaddr := bufaddr, data := last.data ++ data }

end CkptInfo

end RiscvCkpt
