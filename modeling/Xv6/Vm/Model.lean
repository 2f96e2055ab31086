import Xv6.Lib.Bytes
import Xv6.Lib.Stateful

/-!
# Virtual memory

The page allocator of `kernel/kalloc.c` and the page tables of `kernel/vm.c`.  Addresses and
page-table entries are 64-bit numbers; where the source's arithmetic can wrap round, so does
ours.  Physical memory is held by page frames, and a word of a page table is read and written
in the frame it lies in.  The allocator's free list is a list of page addresses; that the
kernel keeps the links inside the free pages plays no part, since nobody else looks there.

A loop that walks to a new page in every round ends, or panics in `walk`, after as many
rounds as there are pages below `MAXVA`; such loops are run with that much fuel.

## Main definitions

* `Machine`, `Layout` — physical memory and the free list; where the kernel's image lies.
* `kalloc`, `kfree` — the page allocator.
* `walk`, `walkaddr`, `mappages`, `uvmunmap` — page tables.
* `uvmcreate`, `uvmalloc`, `uvmdealloc`, `freewalk`, `uvmfree`, `uvmclear` — user memory.
* `copyout`, `copyin`, `copyinstr`, `fetchstr` — copying between the kernel and a user.
-/

namespace Xv6.Vm

/-! ### Numbers and layout -/

/-- The value of a 64-bit unsigned computation. -/
def u64 (x : ℕ) : ℕ := x % 2 ^ 64

/-- A number converted to `int`, and from there to `uint64`. -/
def int64 (x : ℕ) : ℕ :=
  if x % 2 ^ 32 < 2 ^ 31 then x % 2 ^ 32 else 2 ^ 64 - 2 ^ 32 + x % 2 ^ 32

def pgsize : ℕ := 4096 -- bytes per page
def maxva : ℕ := 2 ^ (9 + 9 + 9 + 12 - 1) -- one beyond the highest possible virtual address
def kernbase : ℕ := 0x80000000
def phystop : ℕ := kernbase + 128 * 1024 * 1024
def trampoline : ℕ := maxva - pgsize -- the highest page, in both user and kernel space
def trapframe : ℕ := trampoline - pgsize

def pgrounddown (a : ℕ) : ℕ := a / pgsize * pgsize

def pgroundup (sz : ℕ) : ℕ := pgrounddown (u64 (sz + pgsize - 1))

def pteV : ℕ := 1 <<< 0 -- valid
def pteR : ℕ := 1 <<< 1
def pteW : ℕ := 1 <<< 2
def pteX : ℕ := 1 <<< 3
def pteU : ℕ := 1 <<< 4 -- 1 -> user can access

/-- Shift a physical address to the right place for a PTE. -/
def pa2pte (pa : ℕ) : ℕ := (pa >>> 12) <<< 10

def pte2pa (pte : ℕ) : ℕ := u64 ((pte >>> 10) <<< 12)

def pteFlags (pte : ℕ) : ℕ := pte &&& 0x3FF

/-- The nine bits of a virtual address that index the table of a level. -/
def px (level va : ℕ) : Fin 512 := Fin.ofNat 512 (va >>> (12 + 9 * level))

/-- Where the linker put the kernel. -/
structure Layout where
  kend : ℕ -- `end`, the first address after the kernel
  trampoline : ℕ -- the code of trampoline.S
  trampoline_aligned : trampoline % pgsize = 0
  kernbase_le : kernbase ≤ trampoline
  trampoline_lt : trampoline + pgsize ≤ kend
  kend_le : kend ≤ phystop

/-- The panics of the code modelled here. -/
inductive Panic
  | kfree
  | walk
  | mappagesSize -- mappages: size
  | mappagesRemap -- mappages: remap
  | uvmunmapAligned -- uvmunmap: not aligned
  | uvmunmapWalk -- uvmunmap: walk
  | uvmunmapMapped -- uvmunmap: not mapped
  | uvmunmapLeaf -- uvmunmap: not a leaf
  | freewalk -- freewalk: leaf
  | uvmclear
  | loadseg -- loadseg: address should exist
  | uvmcopyExist -- uvmcopy: pte should exist
  | uvmcopyPresent -- uvmcopy: page not present
  deriving DecidableEq, Repr

/-! ### Physical memory -/

/-- Physical memory, by page frames, and the allocator's free list. -/
structure Machine where
  mem : ℕ → Bytes pgsize -- frame `k` holds the addresses from `k * PGSIZE` on
  freelist : List ℕ -- addresses of the free pages, `kmem.freelist` first

/-- Code of the kernel's memory management. -/
abbrev Code (α : Type) : Type := Kern Panic Machine α

open Kern

namespace Machine

/-- The page an address lies in. -/
def page (m : Machine) (a : ℕ) : Bytes pgsize := m.mem (a / pgsize)

/-- Replace the page an address lies in. -/
def setPage (m : Machine) (a : ℕ) (b : Bytes pgsize) : Machine :=
  { m with mem := Function.update m.mem (a / pgsize) b }

/-- The 64-bit word at an address. -/
def load64 (m : Machine) (a : ℕ) : ℕ := (m.page a).getLE (a % pgsize) 8

/-- Store a 64-bit word at an address. -/
def store64 (m : Machine) (a v : ℕ) : Machine := m.setPage a ((m.page a).putLE (a % pgsize) 8 v)

/-- Store bytes from an address on, inside one page. -/
def storeBytes (m : Machine) (a : ℕ) (l : List UInt8) : Machine :=
  m.setPage a ((m.page a).blit (a % pgsize) l)

/-- `memset(pa, c, PGSIZE)` of a whole page. -/
def memset (m : Machine) (pa : ℕ) (c : UInt8) : Machine :=
  m.setPage pa (Bytes.zero.blit 0 (List.replicate pgsize c))

end Machine

def load64 (a : ℕ) : Code ℕ := read (·.load64 a)

def store64 (a v : ℕ) : Code Unit := write (·.store64 a v)

def memset (pa : ℕ) (c : UInt8) : Code Unit := write (·.memset pa c)

/-- Take a page off the free list and fill it with junk; 0 if there is none. -/
def kalloc : Code ℕ := fun m =>
  match m.freelist with
  | [] => .ok (0, m)
  | r :: rest => .ok (r, { m with freelist := rest }.memset r 5)

/-- Fill a page with junk and put it on the free list. -/
def kfree (K : Layout) (pa : ℕ) : Code Unit :=
  if pa % pgsize ≠ 0 ∨ pa < K.kend ∨ phystop ≤ pa then panic .kfree
  else write fun m => { m.memset pa 1 with freelist := pa :: m.freelist }

/-! ### Page tables -/

/-- How often a loop can walk to a new page. -/
def walks : ℕ := maxva / pgsize + 1

/-- Entry `i` of a page table. -/
def entry (pagetable : ℕ) (i : Fin 512) : ℕ := pagetable + 8 * i

/-- The loop of `walk`, from a level down. -/
def walkFrom (va : ℕ) (alloc : Bool) : ℕ → ℕ → Code ℕ
  | 0, pagetable => pure (entry pagetable (px 0 va))
  | level + 1, pagetable => do
    let pte := entry pagetable (px (level + 1) va)
    let e ← load64 pte
    if e &&& pteV ≠ 0 then
      walkFrom va alloc level (pte2pa e)
    else if alloc then do
      let page ← kalloc
      if page = 0 then
        pure 0
      else do
        memset page 0
        store64 pte (pa2pte page ||| pteV)
        walkFrom va alloc level page
    else
      pure 0

/-- The address of the PTE of `va`, or 0.  With `alloc`, make the page tables needed. -/
def walk (pagetable va : ℕ) (alloc : Bool) : Code ℕ :=
  if maxva ≤ va then panic .walk else walkFrom va alloc 2 pagetable

/-- The physical address of a user page, or 0. -/
def walkaddr (pagetable va : ℕ) : Code ℕ :=
  if maxva ≤ va then
    pure 0
  else do
    let pte ← walk pagetable va false
    if pte = 0 then
      pure 0
    else do
      let e ← load64 pte
      if e &&& pteV = 0 then
        pure 0
      else if e &&& pteU = 0 then
        pure 0
      else
        pure (pte2pa e)

/-- The loop of `mappages`. -/
def mappagesLoop (pagetable last perm : ℕ) : ℕ → ℕ → ℕ → Code ℤ
  | 0, _, _ => diverge
  | fuel + 1, a, pa => do
    let pte ← walk pagetable a true
    if pte = 0 then
      pure (-1)
    else do
      let e ← load64 pte
      if e &&& pteV ≠ 0 then
        panic .mappagesRemap
      else do
        store64 pte (pa2pte pa ||| perm ||| pteV)
        if a = last then
          pure 0
        else
          mappagesLoop pagetable last perm fuel (u64 (a + pgsize)) (u64 (pa + pgsize))

/-- Map the pages that `size` bytes from `va` on touch to physical pages from `pa` on. -/
def mappages (pagetable va size pa perm : ℕ) : Code ℤ :=
  if size = 0 then
    panic .mappagesSize
  else
    mappagesLoop pagetable (pgrounddown (u64 (va + size - 1))) perm walks (pgrounddown va) pa

/-- The loop of `uvmunmap`. -/
def uvmunmapLoop (K : Layout) (pagetable stop : ℕ) (doFree : Bool) : ℕ → ℕ → Code Unit
  | 0, _ => diverge
  | fuel + 1, a =>
    if a < stop then do
      let pte ← walk pagetable a false
      if pte = 0 then
        panic .uvmunmapWalk
      else do
        let e ← load64 pte
        if e &&& pteV = 0 then
          panic .uvmunmapMapped
        else if pteFlags e = pteV then
          panic .uvmunmapLeaf
        else do
          doIf doFree (kfree K (pte2pa e))
          store64 pte 0
          uvmunmapLoop K pagetable stop doFree fuel (u64 (a + pgsize))
    else
      pure ()

/-- Remove `npages` mappings from `va` on; with `doFree` free the pages too. -/
def uvmunmap (K : Layout) (pagetable va npages : ℕ) (doFree : Bool) : Code Unit :=
  if va % pgsize ≠ 0 then
    panic .uvmunmapAligned
  else
    uvmunmapLoop K pagetable (u64 (va + u64 (npages * pgsize))) doFree walks va

/-! ### User memory -/

/-- An empty page table, or 0. -/
def uvmcreate : Code ℕ := do
  let pagetable ← kalloc
  if pagetable = 0 then
    pure 0
  else do
    memset pagetable 0
    pure pagetable

/-- Take user pages away to bring the size from `oldsz` to `newsz`. -/
def uvmdealloc (K : Layout) (pagetable oldsz newsz : ℕ) : Code ℕ :=
  if oldsz ≤ newsz then
    pure oldsz
  else do
    doIf (pgroundup newsz < pgroundup oldsz)
      (uvmunmap K pagetable (pgroundup newsz) (int64 ((pgroundup oldsz - pgroundup newsz) / pgsize))
        true)
    pure newsz

/-- The loop of `uvmalloc`. -/
def uvmallocLoop (K : Layout) (pagetable oldsz newsz : ℕ) : ℕ → ℕ → Code ℕ
  | 0, _ => diverge
  | fuel + 1, a =>
    if a < newsz then do
      let mem ← kalloc
      if mem = 0 then do
        let _ ← uvmdealloc K pagetable a oldsz
        pure 0
      else do
        memset mem 0
        let r ← mappages pagetable a pgsize mem (pteW ||| pteX ||| pteR ||| pteU)
        if r ≠ 0 then do
          kfree K mem
          let _ ← uvmdealloc K pagetable a oldsz
          pure 0
        else
          uvmallocLoop K pagetable oldsz newsz fuel (u64 (a + pgsize))
    else
      pure newsz

/-- Add user pages to bring the size from `oldsz` to `newsz`.  The new size, or 0. -/
def uvmalloc (K : Layout) (pagetable oldsz newsz : ℕ) : Code ℕ :=
  if newsz < oldsz then
    pure oldsz
  else
    uvmallocLoop K pagetable (pgroundup oldsz) newsz walks (pgroundup oldsz)

/-- The loop of `uvmcopy`.  The `memmove` is of a whole page. -/
def uvmcopyLoop (K : Layout) (old new sz : ℕ) : ℕ → ℕ → Code ℤ
  | 0, _ => diverge
  | fuel + 1, i =>
    let err : Code ℤ := do
      uvmunmap K new 0 (i / pgsize) true
      pure (-1)
    if i < sz then do
      let pte ← walk old i false
      if pte = 0 then
        panic .uvmcopyExist
      else do
        let e ← load64 pte
        if e &&& pteV = 0 then
          panic .uvmcopyPresent
        else do
          let mem ← kalloc
          if mem = 0 then
            err
          else do
            write fun m => m.setPage mem (m.page (pte2pa e))
            let r ← mappages new i pgsize mem (pteFlags e)
            if r ≠ 0 then do
              kfree K mem
              err
            else
              uvmcopyLoop K old new sz fuel (u64 (i + pgsize))
    else
      pure 0

/-- Copy the memory of a parent into a child's page table: 0, or -1. -/
def uvmcopy (K : Layout) (old new sz : ℕ) : Code ℤ := uvmcopyLoop K old new sz walks 0

/-- Free the page-table pages, recursively.  The first argument bounds the recursion. -/
def freewalk (K : Layout) : ℕ → ℕ → Code Unit
  | 0, _ => diverge
  | depth + 1, pagetable => do
    forRange 512 fun i => do
      let pte ← load64 (pagetable + 8 * i)
      if pte &&& pteV ≠ 0 ∧ pte &&& (pteR ||| pteW ||| pteX) = 0 then do
        freewalk K depth (pte2pa pte)
        store64 (pagetable + 8 * i) 0
      else if pte &&& pteV ≠ 0 then
        panic .freewalk
      else
        pure ()
    kfree K pagetable

/-- Free user pages, then the page table. -/
def uvmfree (K : Layout) (pagetable sz : ℕ) : Code Unit := do
  doIf (0 < sz) (uvmunmap K pagetable 0 (pgroundup sz / pgsize) true)
  freewalk K 3 pagetable

/-- Make a page table for a process: no user memory, but the trampoline and the process's
trapframe. -/
def procPagetable (K : Layout) (trapframe : ℕ) : Code ℕ := do
  let pagetable ← uvmcreate
  if pagetable = 0 then
    pure 0
  else do
    let r ← mappages pagetable trampoline pgsize K.trampoline (pteR ||| pteX)
    if r < 0 then do
      uvmfree K pagetable 0
      pure 0
    else do
      let r ← mappages pagetable Vm.trapframe pgsize trapframe (pteR ||| pteW)
      if r < 0 then do
        uvmunmap K pagetable trampoline 1 false
        uvmfree K pagetable 0
        pure 0
      else
        pure pagetable

/-- Free a process's page table, and the physical memory it refers to. -/
def procFreepagetable (K : Layout) (pagetable sz : ℕ) : Code Unit := do
  uvmunmap K pagetable trampoline 1 false
  uvmunmap K pagetable trapframe 1 false
  uvmfree K pagetable sz

/-- Make a page inaccessible to the user. -/
def uvmclear (pagetable va : ℕ) : Code Unit := do
  let pte ← walk pagetable va false
  if pte = 0 then
    panic .uvmclear
  else do
    let e ← load64 pte
    store64 pte (e &&& (2 ^ 64 - 1 - pteU))

/-! ### Copying between the kernel and a user -/

/-- The loop of `copyout`. -/
def copyoutLoop (pagetable : ℕ) : ℕ → ℕ → (ℕ → UInt8) → ℕ → Code ℤ
  | 0, _, _, _ => diverge
  | fuel + 1, dstva, src, len =>
    if 0 < len then do
      let va0 := pgrounddown dstva
      let pa0 ← walkaddr pagetable va0
      if pa0 = 0 then
        pure (-1)
      else do
        let n := min (pgsize - (dstva - va0)) len
        write (·.storeBytes (pa0 + (dstva - va0)) ((List.range n).map src))
        copyoutLoop pagetable fuel (u64 (va0 + pgsize)) (fun i => src (n + i)) (len - n)
    else
      pure 0

/-- Copy `len` bytes from `src` on to the user address `dstva`. -/
def copyout (pagetable dstva : ℕ) (src : ℕ → UInt8) (len : ℕ) : Code ℤ :=
  copyoutLoop pagetable walks dstva src len

/-- The loop of `copyin`; `dst` is what has been written to the kernel's buffer so far. -/
def copyinLoop (pagetable : ℕ) : ℕ → List UInt8 → ℕ → ℕ → Code (ℤ × List UInt8)
  | 0, _, _, _ => diverge
  | fuel + 1, dst, srcva, len =>
    if 0 < len then do
      let va0 := pgrounddown srcva
      let pa0 ← walkaddr pagetable va0
      if pa0 = 0 then
        pure (-1, dst)
      else do
        let n := min (pgsize - (srcva - va0)) len
        let bytes ← read fun m => (m.page pa0).slice (srcva - va0) n
        copyinLoop pagetable fuel (dst ++ bytes) (u64 (va0 + pgsize)) (len - n)
    else
      pure (0, dst)

/-- Copy `len` bytes from the user address `srcva` to the kernel: the result, and what was
written. -/
def copyin (pagetable srcva len : ℕ) : Code (ℤ × List UInt8) :=
  copyinLoop pagetable walks [] srcva len

/-- The inner loop of `copyinstr`: at most `n` bytes of a page from `p` on.  Whether a NUL
was seen, what is left of `max`, and what was written. -/
def copyinstrPage (b : Bytes pgsize) : ℕ → ℕ → ℕ → List UInt8 → Bool × ℕ × List UInt8
  | 0, _, max, dst => (false, max, dst)
  | n + 1, p, max, dst =>
    if b.get p = 0 then (true, max, dst ++ [0])
    else copyinstrPage b n (p + 1) (max - 1) (dst ++ [b.get p])

/-- The outer loop of `copyinstr`. -/
def copyinstrLoop (pagetable : ℕ) : ℕ → Bool → List UInt8 → ℕ → ℕ → Code (ℤ × List UInt8)
  | 0, _, _, _, _ => diverge
  | fuel + 1, gotNull, dst, srcva, max =>
    if gotNull = false ∧ 0 < max then do
      let va0 := pgrounddown srcva
      let pa0 ← walkaddr pagetable va0
      if pa0 = 0 then
        pure (-1, dst)
      else do
        let n := min (pgsize - (srcva - va0)) max
        let r ← read fun m => copyinstrPage (m.page pa0) n (srcva - va0) max dst
        copyinstrLoop pagetable fuel r.1 r.2.2 (u64 (va0 + pgsize)) r.2.1
    else if gotNull then
      pure (0, dst)
    else
      pure (-1, dst)

/-- Copy a NUL-terminated string of at most `max` bytes to the kernel: the result, and what
was written. -/
def copyinstr (pagetable srcva max : ℕ) : Code (ℤ × List UInt8) :=
  copyinstrLoop pagetable walks false [] srcva max

/-- The length of the C string a buffer starts with, an `int`. -/
def strlen (buf : List UInt8) : ℤ := ((buf.takeWhile (· ≠ 0)).length : ℤ).bmod (2 ^ 32)

/-- Fetch the NUL-terminated string at `addr`: its length or -1, and what was written.  The
`int` argument `max` is converted to `uint64`. -/
def fetchstr (pagetable addr : ℕ) (max : ℤ) : Code (ℤ × List UInt8) := do
  let r ← copyinstr pagetable addr (max % 2 ^ 64).toNat
  if r.1 < 0 then
    pure r
  else
    pure (strlen r.2, r.2)

end Xv6.Vm
