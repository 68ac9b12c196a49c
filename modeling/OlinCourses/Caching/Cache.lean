import OlinCourses.Lib.Transition

/-!
# The direct-mapped cache

`cache.c`: address slicing, `make_cache`, and loads and stores that go through the
cache. `size_t`, `uintptr_t` and pointers are 64-bit words. A shift by 64 or more
and an access outside an allocated array are undefined behaviour, written `none`.
-/
namespace OlinCourses.Caching

abbrev Byte := BitVec 8
abbrev Size := BitVec 64
abbrev Addr := BitVec 64

def ADDR_BITS : Size := 64#64
def SIZE_MAX : Size := 0xFFFFFFFFFFFFFFFF#64

/-- `x << n` on 64-bit words. -/
def shl (x n : Size) : Option Size := if n.toNat < 64 then some (x <<< n.toNat) else none

/-- `x >> n` on 64-bit words. -/
def shr (x n : Size) : Option Size := if n.toNat < 64 then some (x >>> n.toNat) else none

/-- `block[i] = v` on an array of bytes. -/
def setByte (block : List Byte) (i : ℕ) (v : Byte) : Option (List Byte) :=
  if i < block.length then some (block.set i v) else none

structure LineParams where
  numIndexBits : Size
  numOffsetBits : Size

structure CacheLine where
  block : List Byte
  tag : Size
  valid : Bool

structure Cache where
  lines : List CacheLine
  params : LineParams
  hits : Size
  misses : Size
  evictions : Size

abbrev Memory := Addr → Byte

/-- `malloc` leaves arbitrary bytes, `garbage`, in the block. -/
def makeLine (blockSize : Size) (garbage : ℕ → Byte) : CacheLine where
  block := (List.range blockSize.toNat).map garbage
  tag := 0#64
  valid := false

/-- The loop fills the slots of the array of line pointers, which has as many as
fit in the `num_lines * sizeof(cache_line*)` bytes asked for. -/
def makeCache (params : LineParams) (garbage : ℕ → ℕ → Byte) : Option Cache := do
  let numLines ← shl 1#64 params.numIndexBits
  let lineSize ← shl 1#64 params.numOffsetBits
  let slots := (numLines * 8#64).toNat / 8
  let lines ← (List.range numLines.toNat).mapM fun i =>
    if i < slots then some (makeLine lineSize (garbage i)) else none
  return { lines, params, hits := 0#64, misses := 0#64, evictions := 0#64 }

def getTag (addr : Addr) (params : LineParams) : Option Size := do
  let numLineBits := params.numIndexBits + params.numOffsetBits
  if numLineBits = 0#64 then
    return addr
  let numTagBits := ADDR_BITS - numLineBits
  let mask := (← shl 1#64 numTagBits) - 1#64
  return (← shr addr numLineBits) &&& mask

def getLineIndex (addr : Addr) (params : LineParams) : Option Size := do
  let mask := (← shl 1#64 params.numIndexBits) - 1#64
  return (← shr addr params.numOffsetBits) &&& mask

def getLineOffset (addr : Addr) (params : LineParams) : Option Size := do
  if params.numOffsetBits = ADDR_BITS then
    return addr
  let mask := (← shl 1#64 params.numOffsetBits) - 1#64
  return addr &&& mask

def blockSize (c : Cache) : Option Size :=
  if c.params.numOffsetBits = ADDR_BITS then some SIZE_MAX else shl 1#64 c.params.numOffsetBits

/-- The loop `block[i] = block_addr[i]` for `i < n`. -/
def copyBlock (mem : Memory) (blockAddr : Addr) (n : ℕ) (block : List Byte) :
    Option (List Byte) :=
  (List.range n).foldlM (fun b i => setByte b i (mem (blockAddr + BitVec.ofNat 64 i))) block

def access (c : Cache) (mem : Memory) (addr : Addr) : Option Cache := do
  let tag ← getTag addr c.params
  let lineIndex ← getLineIndex addr c.params
  let line ← c.lines[lineIndex.toNat]?
  if line.valid && line.tag == tag then
    return { c with hits := c.hits + 1#64 }
  else
    let offset ← getLineOffset addr c.params
    let block ← copyBlock mem (addr - offset) (← blockSize c).toNat line.block
    return { c with
      misses := c.misses + 1#64
      evictions := if line.valid then c.evictions + 1#64 else c.evictions
      lines := c.lines.set lineIndex.toNat { block, tag, valid := true } }

def load (c : Cache) (mem : Memory) (addr : Addr) : Option (Byte × Cache) := do
  let c ← access c mem addr
  let lineIndex ← getLineIndex addr c.params
  let lineOffset ← getLineOffset addr c.params
  let line ← c.lines[lineIndex.toNat]?
  let value ← line.block[lineOffset.toNat]?
  return (value, c)

def store (c : Cache) (mem : Memory) (addr : Addr) (value : Byte) : Option (Cache × Memory) := do
  let c ← access c mem addr
  let lineIndex ← getLineIndex addr c.params
  let lineOffset ← getLineOffset addr c.params
  let line ← c.lines[lineIndex.toNat]?
  let block ← setByte line.block lineOffset.toNat value
  return ({ c with lines := c.lines.set lineIndex.toNat { line with block } },
    Function.update mem addr value)

/-- A cache together with the memory behind it. -/
structure Machine where
  cache : Cache
  mem : Memory

inductive Call
  | load (addr : Addr)
  | store (addr : Addr) (value : Byte)

namespace Call

def addr : Call → Addr
  | load addr => addr
  | store addr _ => addr

/-- The result of a call, the loaded byte if it is a load, and the machine after it. -/
def exec (s : Machine) : Call → Option (Option Byte × Machine)
  | load addr => (Caching.load s.cache s.mem addr).map fun (value, cache) =>
      (some value, { s with cache })
  | store addr value => (Caching.store s.cache s.mem addr value).map fun (cache, mem) =>
      (none, ⟨cache, mem⟩)

end Call

/-- A finite sequence of calls. -/
def run (s : Machine) (calls : List Call) : Option Machine :=
  Transition.run (fun s call => (Call.exec s call).map Prod.snd) s calls

theorem run_concat (s : Machine) (calls : List Call) (call : Call) :
    run s (calls ++ [call]) = (run s calls).bind fun s => (call.exec s).map Prod.snd := by
  unfold run
  rw [Transition.run_append]
  simp

end OlinCourses.Caching
