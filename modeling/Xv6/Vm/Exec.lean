import Xv6.Fs.ReadWrite
import Xv6.Vm.Grow

/-!
# exec

`exec` replaces the memory of a process by a program: it makes a new page table, loads the
segments that the file's program headers describe, adds a guard page and a stack page, pushes the
arguments and commits.  Every check that fails goes to `bad`, which frees the new table.

Here a file is the string of its bytes; `readi` returns parts of it.  The code's 64-bit and 32-bit
variables are natural numbers with the wrapping written out.  The calls of the file system's
transactions and locks around the loading are left out.

## Main definitions

* `ElfHdr`, `ProgHdr` — the fields of the headers that `exec` reads.
* `loadseg`, `loadSegments`, `pushArgs`, `exec` — the code.
* `imageByte`, `imageEnd` — what a list of program headers describes.
-/

namespace Xv6.Vm

open Kern Fs

/-! ### Headers -/

/-- The `k` bytes at an offset as a little-endian number. -/
def field (bytes : List UInt8) (off k : ℕ) : ℕ :=
  ((bytes.drop off).take k).foldr (fun b v => b.toNat + 256 * v) 0

/-- What `exec` reads of `struct elfhdr`. -/
structure ElfHdr where
  magic : ℕ -- must equal `ELF_MAGIC`
  entry : ℕ
  phoff : ℕ
  phnum : ℕ

/-- What `exec` reads of `struct proghdr`. -/
structure ProgHdr where
  type : ℕ
  off : ℕ
  vaddr : ℕ
  filesz : ℕ
  memsz : ℕ
  deriving DecidableEq

def sizeofElfhdr : ℕ := 64
def sizeofProghdr : ℕ := 56
def elfMagic : ℕ := 0x464C457F -- "\x7FELF" in little endian
def elfProgLoad : ℕ := 1
def maxarg : ℕ := 32 -- max exec arguments

def elfHdr (bytes : List UInt8) : ElfHdr where
  magic := field bytes 0 4
  entry := field bytes 24 8
  phoff := field bytes 32 8
  phnum := field bytes 56 2

def progHdr (bytes : List UInt8) : ProgHdr where
  type := field bytes 0 4
  off := field bytes 8 8
  vaddr := field bytes 16 8
  filesz := field bytes 32 8
  memsz := field bytes 40 8

/-! ### Loading -/

/-- The loop of `loadseg`; the counter is a `uint`. -/
def loadsegLoop (pagetable va : ℕ) (file : List UInt8) (offset sz : ℕ) : ℕ → ℕ → Code ℤ
  | 0, _ => diverge
  | fuel + 1, i =>
    if i < sz then do
      let pa ← walkaddr pagetable (u64 (va + i))
      if pa = 0 then
        panic .loadseg
      else do
        let n := if sz - i < pgsize then sz - i else pgsize
        let r := readString file (u32 (offset + i)) n
        write (·.storeBytes pa r.2)
        if r.1 ≠ n then
          pure (-1)
        else
          loadsegLoop pagetable va file offset sz fuel (u32 (i + pgsize))
    else
      pure 0

/-- Load a program segment at `va`; `offset` and `sz` are `uint`. -/
def loadseg (pagetable va : ℕ) (file : List UInt8) (offset sz : ℕ) : Code ℤ :=
  loadsegLoop pagetable va file offset sz (2 ^ 32 / pgsize + 1) 0

/-- The loop over the program headers, `n` of them from `off` on.  Whether all went well, and
the size of the image. -/
def loadSegments (K : Layout) (pagetable : ℕ) (file : List UInt8) : ℕ → ℕ → ℕ → Code (Bool × ℕ)
  | 0, _, sz => pure (true, sz)
  | n + 1, off, sz =>
    let r := readString file off sizeofProghdr
    let ph := progHdr r.2
    if r.1 ≠ sizeofProghdr then
      pure (false, sz)
    else if ph.type ≠ elfProgLoad then
      loadSegments K pagetable file n (u32 (off + sizeofProghdr)) sz
    else if ph.memsz < ph.filesz then
      pure (false, sz)
    else if u64 (ph.vaddr + ph.memsz) < ph.vaddr then
      pure (false, sz)
    else do
      let sz1 ← uvmalloc K pagetable sz (u64 (ph.vaddr + ph.memsz))
      if sz1 = 0 then
        pure (false, sz)
      else if ph.vaddr % pgsize ≠ 0 then
        pure (false, sz1)
      else do
        let r ← loadseg pagetable ph.vaddr file (u32 ph.off) (u32 ph.filesz)
        if r < 0 then
          pure (false, sz1)
        else
          loadSegments K pagetable file n (u32 (off + sizeofProghdr)) sz1

/-! ### The stack -/

/-- The difference of two `uint64`. -/
def sub64 (a b : ℕ) : ℕ := (a + (2 ^ 64 - b % 2 ^ 64)) % 2 ^ 64

/-- Byte `i` of a string with its NUL. -/
def cstring (s : List UInt8) (i : ℕ) : UInt8 := s.getD i 0

/-- Byte `i` of an array of 64-bit words. -/
def wordBytes (ws : List ℕ) (i : ℕ) : UInt8 := UInt8.ofNat (ws.getD (i / 8) 0 / 256 ^ (i % 8))

/-- The loop that pushes the argument strings: the stack pointer and `ustack` at its end, or
nothing for `goto bad`. -/
def pushArgs (pagetable stackbase : ℕ) : List (List UInt8) → ℕ → List ℕ → Code (Option (ℕ × List ℕ))
  | [], sp, ustack => pure (some (sp, ustack))
  | arg :: argv, sp, ustack =>
    let argc := ustack.length
    let len := u64 (arg.length + 1)
    let sp := sub64 sp len
    let sp := sp - sp % 16 -- riscv sp must be 16-byte aligned
    if maxarg ≤ argc then
      pure none
    else if sp < stackbase then
      pure none
    else do
      let r ← copyout pagetable sp (cstring arg) len
      if r < 0 then
        pure none
      else
        pushArgs pagetable stackbase argv sp (ustack ++ [sp])

/-- Push the argument strings, then the array of `argv[]` pointers: the stack pointer at the
end. -/
def pushArgv (pagetable stackbase : ℕ) (argv : List (List UInt8)) (sp : ℕ) : Code (Option ℕ) := do
  let r ← pushArgs pagetable stackbase argv sp []
  match r with
  | none => pure none
  | some (sp, ustack) =>
    let size := u64 ((ustack.length + 1) * 8)
    let sp := sub64 sp size
    let sp := sp - sp % 16
    if sp < stackbase then
      pure none
    else do
      let r ← copyout pagetable sp (wordBytes (ustack ++ [0])) size
      if r < 0 then
        pure none
      else
        pure (some sp)

/-! ### exec -/

/-- The last element of a path. -/
def lastElem (path : List UInt8) : List UInt8 := (path.reverse.takeWhile (· ≠ 47)).reverse

/-- `safestrcpy`: what is in a buffer after at most `n` bytes of a string were copied to it. -/
def safestrcpy (s t : List UInt8) (n : ℕ) : List UInt8 :=
  let copied := (t ++ [0]).take (n - 1)
  copied ++ 0 :: s.drop (copied.length + 1)

/-- `bad`: free what was built. -/
def execBad (K : Layout) (p : Proc) (pagetable sz : ℕ) : Code (ℤ × Proc) := do
  procFreepagetable K pagetable sz
  pure (-1, p)

/-- The end of `exec`: save the name and commit to the new image. -/
def execCommit (K : Layout) (p : Proc) (path : List UInt8) (entry : ℕ) (pagetable sz sp argc : ℕ) :
    Code (ℤ × Proc) := do
  store64 (p.trapframe + 120) sp -- a1
  store64 (p.trapframe + 24) entry -- epc, the initial program counter
  store64 (p.trapframe + 48) sp -- the initial stack pointer
  procFreepagetable K p.pagetable p.sz
  pure (argc, { p with
    pagetable := pagetable, sz := sz, name := safestrcpy p.name (lastElem path) 16 })

/-- `exec` from the allocation of the stack on. -/
def execStack (K : Layout) (p : Proc) (path : List UInt8) (argv : List (List UInt8)) (entry : ℕ)
    (pagetable sz : ℕ) : Code (ℤ × Proc) := do
  let sz := pgroundup sz
  let sz1 ← uvmalloc K pagetable sz (u64 (sz + 2 * pgsize))
  if sz1 = 0 then
    execBad K p pagetable sz
  else do
    uvmclear pagetable (sub64 sz1 (2 * pgsize))
    let r ← pushArgv pagetable (sub64 sz1 pgsize) argv sz1
    match r with
    | none => execBad K p pagetable sz1
    | some sp => execCommit K p path entry pagetable sz1 sp argv.length

/-- Replace the memory of the process by the program in a file, which is `none` if the path
leads to no inode: the result, and the process. -/
def exec (K : Layout) (p : Proc) (path : List UInt8) (ip : Option (List UInt8))
    (argv : List (List UInt8)) : Code (ℤ × Proc) :=
  match ip with
  | none => pure (-1, p)
  | some file =>
    let r := readString file 0 sizeofElfhdr
    let elf := elfHdr r.2
    if r.1 ≠ sizeofElfhdr then
      pure (-1, p)
    else if elf.magic ≠ elfMagic then
      pure (-1, p)
    else do
      let pagetable ← procPagetable K p.trapframe
      if pagetable = 0 then
        pure (-1, p)
      else do
        let r ← loadSegments K pagetable file elf.phnum (u32 elf.phoff) 0
        if r.1 then
          execStack K p path argv elf.entry pagetable r.2
        else
          execBad K p pagetable r.2

/-! ### What the headers describe -/

/-- The program headers of a file, `n` of them from `off` on. -/
def headers (file : List UInt8) : ℕ → ℕ → List ProgHdr
  | 0, _ => []
  | n + 1, off =>
    progHdr (readString file off sizeofProghdr).2 :: headers file n (u32 (off + sizeofProghdr))

/-- The program headers that the file's own header announces. -/
def programHeaders (file : List UInt8) : List ProgHdr :=
  let elf := elfHdr (readString file 0 sizeofElfhdr).2
  headers file elf.phnum (u32 elf.phoff)

/-- The file part of a loadable segment covers an address. -/
def ProgHdr.Covers (ph : ProgHdr) (va : ℕ) : Prop :=
  ph.type = elfProgLoad ∧ ph.vaddr ≤ va ∧ va < ph.vaddr + ph.filesz

instance (ph : ProgHdr) (va : ℕ) : Decidable (ph.Covers va) :=
  inferInstanceAs (Decidable (_ ∧ _ ∧ _))

/-- The byte at an address of the image: the byte of the file given by the last segment whose
file part covers the address, or 0 if none does. -/
def imageByte (file : List UInt8) (phs : List ProgHdr) (va : ℕ) : UInt8 :=
  match phs.reverse.find? (fun ph => decide (ph.Covers va)) with
  | some ph => file.getD (ph.off + (va - ph.vaddr)) 0
  | none => 0

/-- The end of the last segment in memory. -/
def imageEnd (phs : List ProgHdr) : ℕ :=
  phs.foldl (fun sz ph => if ph.type = elfProgLoad then max sz (ph.vaddr + ph.memsz) else sz) 0

end Xv6.Vm
