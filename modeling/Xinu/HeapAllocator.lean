import Xinu.ByteMemory

/-!
# The kernel's heap allocator

`getmem`, `getstk` and `freemem` work on a singly linked list of free memory
blocks.  The link and the length of a block are stored in the block itself, so
the model keeps the bytes of physical memory; the list head `memlist` is a
kernel variable outside the heap.

A search follows the stored links.  It is bounded by the number of addresses:
a search that takes more steps has met a block twice and never ends, which the
model reports as `none`.
-/

namespace Xinu

open ByteMemory

def NULL : Word := 0

def OK : Word := 1

def SYSERR : Word := -1

def TIMEOUT : Word := -3

/-! ## memory.h -/

def PAGE_SIZE : Word := 4096

def HOLESTART : Word := 640 * 1024

def HOLEEND : Word := 1024 * 1024

def roundmb (x : Word) : Word := (7 + x) &&& ~~~7

def truncmb (x : Word) : Word := x &&& ~~~7

structure Memblk where
  mnext : Word
  mlength : Word
  deriving DecidableEq, Repr

/-- The memory an allocator call sees: physical memory, the list head with its
own address, and the bounds set at boot. -/
structure Heap where
  mem : Memory
  memlist : Memblk
  memlistAddr : Word
  minheap : Word
  maxheap : Word

/-- A pointer to a `memblk`: `none` is `&memlist`. -/
abbrev BlockRef := Option Word

def Heap.addrOf (h : Heap) : BlockRef → Word
  | none => h.memlistAddr
  | some block => block

def Heap.mnext (h : Heap) : BlockRef → Word
  | none => h.memlist.mnext
  | some block => read32 h.mem block

def Heap.mlength (h : Heap) : BlockRef → Word
  | none => h.memlist.mlength
  | some block => read32 h.mem (block + 4)

def Heap.setMnext (h : Heap) (ref : BlockRef) (value : Word) : Heap :=
  match ref with
  | none => { h with memlist := { h.memlist with mnext := value } }
  | some block => { h with mem := write32 h.mem block value }

def Heap.setMlength (h : Heap) (ref : BlockRef) (value : Word) : Heap :=
  match ref with
  | none => { h with memlist := { h.memlist with mlength := value } }
  | some block => { h with mem := write32 h.mem (block + 4) value }

/-- `memlist.mlength += nbytes`. -/
def Heap.credit (h : Heap) (nbytes : Word) : Heap :=
  h.setMlength none (h.mlength none + nbytes)

/-- `memlist.mlength -= nbytes`. -/
def Heap.debit (h : Heap) (nbytes : Word) : Heap :=
  h.setMlength none (h.mlength none - nbytes)

/-- One step more than there are addresses. -/
def walkBound : ℕ := 2 ^ 32 + 1

/-! ## getmem -/

/-- The search loop of `getmem`, with `nbytes` already rounded. -/
def getmemLoop (nbytes : Word) : ℕ → BlockRef → Word → Heap →
    Option (Heap × Word)
  | 0, _, _, _ => none
  | fuel + 1, prev, curr, h =>
      if curr = NULL then
        some (h, SYSERR)
      else if h.mlength (some curr) = nbytes then
        some ((h.setMnext prev (h.mnext (some curr))).debit nbytes, curr)
      else if nbytes < h.mlength (some curr) then
        let leftover := curr + nbytes
        let h₁ := h.setMnext prev leftover
        let h₂ := h₁.setMnext (some leftover) (h₁.mnext (some curr))
        let h₃ := h₂.setMlength (some leftover)
          (h₂.mlength (some curr) - nbytes)
        some (h₃.debit nbytes, curr)
      else
        getmemLoop nbytes fuel (some curr) (h.mnext (some curr)) h

def getmem (nbytes : Word) (h : Heap) : Option (Heap × Word) :=
  if nbytes = 0 then
    some (h, SYSERR)
  else
    getmemLoop (roundmb nbytes) walkBound none (h.mnext none) h

/-! ## getstk -/

/-- The scan of `getstk`: the last block that fits, with its predecessor. -/
def getstkLoop (nbytes : Word) (h : Heap) :
    ℕ → BlockRef → Word → Option (BlockRef × Word) →
      Option (Option (BlockRef × Word))
  | 0, _, _, _ => none
  | fuel + 1, prev, curr, fits =>
      if curr = NULL then
        some fits
      else
        getstkLoop nbytes h fuel (some curr) (h.mnext (some curr))
          (if nbytes ≤ h.mlength (some curr) then some (prev, curr) else fits)

def getstk (nbytes : Word) (h : Heap) : Option (Heap × Word) :=
  if nbytes = 0 then
    some (h, SYSERR)
  else
    let nbytes := roundmb nbytes
    match getstkLoop nbytes h walkBound none (h.mnext none) none with
    | none => none
    | some none => some (h, SYSERR)
    | some (some (fitsprev, fits)) =>
        if nbytes = h.mlength (some fits) then
          let h₁ := h.setMnext fitsprev (h.mnext (some fits))
          some (h₁.debit nbytes, fits + nbytes - 4)
        else
          let h₁ := h.setMlength (some fits) (h.mlength (some fits) - nbytes)
          let fits := fits + h₁.mlength (some fits)
          some (h₁.debit nbytes, fits + nbytes - 4)

/-! ## freemem -/

/-- The walk of `freemem` to the free blocks around `block`. -/
def freememLoop (block : Word) (h : Heap) :
    ℕ → BlockRef → Word → Option (BlockRef × Word)
  | 0, _, _ => none
  | fuel + 1, prev, next =>
      if next ≠ NULL ∧ next < block then
        freememLoop block h fuel (some next) (h.mnext (some next))
      else
        some (prev, next)

/-- Coalesce `block` with the next free block if they are adjacent. -/
def coalesceNext (block : BlockRef) (next : Word) (h : Heap) : Heap :=
  if h.addrOf block + h.mlength block = next then
    let h₁ := h.setMlength block (h.mlength block + h.mlength (some next))
    h₁.setMnext block (h₁.mnext (some next))
  else
    h

def freemem (blkaddr nbytes : Word) (h : Heap) : Option (Heap × Word) :=
  if nbytes = 0 ∨ blkaddr < h.minheap ∨ h.maxheap < blkaddr then
    some (h, SYSERR)
  else
    let nbytes := roundmb nbytes
    let block := blkaddr
    match freememLoop block h walkBound none (h.mnext none) with
    | none => none
    | some (prev, next) =>
        let top := if prev = none then NULL
          else h.addrOf prev + h.mlength prev
        if (prev ≠ none ∧ block < top) ∨
            (next ≠ NULL ∧ next < block + nbytes) then
          some (h, SYSERR)
        else
          let h₁ := h.credit nbytes
          if top = block then
            let h₂ := h₁.setMlength prev (h₁.mlength prev + nbytes)
            some (coalesceNext prev next h₂, OK)
          else
            let h₂ := h₁.setMnext (some block) next
            let h₃ := h₂.setMlength (some block) nbytes
            let h₄ := h₃.setMnext prev block
            some (coalesceNext (some block) next h₄, OK)

/-- The macro of memory.h: the stack's lowest address is computed from its
highest word. -/
def freestk (p len : Word) (h : Heap) : Option (Heap × Word) :=
  freemem (p - roundmb len + 4) (roundmb len) h

end Xinu
