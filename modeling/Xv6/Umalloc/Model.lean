import Xv6.Vm.Grow

/-!
# The memory allocator of user programs

`malloc` and `free` of `user/umalloc.c`.  The free blocks are on a circular list in the order of
their addresses, linked through headers of 16 bytes; `freep` points to some block of it.  A size
counts units of 16 bytes, the header among them.  Memory is modelled by the fields of the headers:
the client's bytes are never read.  Addresses are bytes, so `p + 1` of the source is `p + 16`.

## Main definitions

* `Heap` — the headers, `freep`, and what the kernel keeps.
* `free`, `morecore`, `malloc` — the allocator, for any `sbrk`.
* `sysSbrk` — `sbrk` as the kernel has it.
-/

namespace Xv6.Umalloc

open Vm (u32 addInt)

/-- The state: `κ` is what `sbrk` depends on. -/
structure Heap (κ : Type) where
  ptr : ℕ → ℕ -- the field `ptr` of the header at an address
  size : ℕ → ℕ -- the field `size`, a `uint`
  freep : ℕ -- 0 before the first call
  kernel : κ

variable {κ : Type}

/-- A bound for the search loops: a list has no more blocks than memory has addresses. -/
@[irreducible] def loopBound : ℕ := 2 ^ 64

/-- Follow pointers from `p` to the first block with `stop`. -/
def seek (stop : ℕ → Bool) (ptr : ℕ → ℕ) : ℕ → ℕ → Option ℕ
  | 0, _ => none
  | n + 1, p => if stop p then some p else seek stop ptr n (ptr p)

/-- The test of the loop in `free`: block `bp` comes right after `p`. -/
def after (ptr : ℕ → ℕ) (bp p : ℕ) : Bool :=
  (p < bp ∧ bp < ptr p) ∨ (ptr p ≤ p ∧ (p < bp ∨ bp < ptr p))

/-- Let `y` come after `x`: take it into `x` if they touch. -/
def link (h : Heap κ) (x y : ℕ) : Heap κ :=
  if x + 16 * h.size x = y then
    { h with
      size := Function.update h.size x (u32 (h.size x + h.size y))
      ptr := Function.update h.ptr x (h.ptr y) }
  else
    { h with ptr := Function.update h.ptr x y }

/-- Give back the block of `ap`. -/
def free (h : Heap κ) (ap : ℕ) : Option (Heap κ) :=
  let bp := ap - 16
  match seek (after h.ptr bp) h.ptr loopBound h.freep with
  | none => none
  | some p => some { link (link h bp (h.ptr p)) p bp with freep := p }

section

variable (sbrk : ℕ → κ → Option ℕ × κ)

/-- Get memory for `nu` units from the system and free it: `freep`, or 0. -/
def morecore (h : Heap κ) (nu : ℕ) : Option (ℕ × Heap κ) :=
  let nu := if nu < 4096 then 4096 else nu
  match sbrk (nu * 16) h.kernel with
  | (none, k) => some (0, { h with kernel := k })
  | (some hp, k) =>
    match free { h with size := Function.update h.size hp nu, kernel := k } (hp + 16) with
    | none => none
    | some h => some (h.freep, h)

/-- Take `nunits` units from the block `p`, which comes after `prevp`: all of it, or its tail. -/
def take (h : Heap κ) (nunits prevp p : ℕ) : ℕ × Heap κ :=
  if h.size p = nunits then
    (p + 16, { h with ptr := Function.update h.ptr prevp (h.ptr p), freep := prevp })
  else
    let size := Function.update h.size p (h.size p - nunits)
    let q := p + 16 * size p
    (q + 16, { h with size := Function.update size q nunits, freep := prevp })

/-- The loop of `malloc`: the address that it returns. -/
def mallocLoop (nunits : ℕ) : ℕ → Heap κ → ℕ → ℕ → Option (ℕ × Heap κ)
  | 0, _, _, _ => none
  | n + 1, h, prevp, p =>
    if nunits ≤ h.size p then
      some (take h nunits prevp p)
    else if p = h.freep then
      match morecore sbrk h nunits with
      | none => none
      | some (p, h) => if p = 0 then some (0, h) else mallocLoop nunits n h p (h.ptr p)
    else
      mallocLoop nunits n h p (h.ptr p)

/-- The units for `nbytes` bytes and a header. -/
def units (nbytes : ℕ) : ℕ := u32 ((nbytes + 15) / 16 + 1)

/-- The list of the first call: only the empty block `base`. -/
def init (base : ℕ) (h : Heap κ) : Heap κ :=
  { h with
    ptr := Function.update h.ptr base base
    size := Function.update h.size base 0
    freep := base }

/-- Allocate `nbytes` bytes; `base` is the address of the static header. -/
def malloc (base : ℕ) (h : Heap κ) (nbytes : ℕ) : Option (ℕ × Heap κ) :=
  let h := if h.freep = 0 then init base h else h
  mallocLoop sbrk (units nbytes) loopBound h h.freep (h.ptr h.freep)

end

/-! ### The kernel's sbrk -/

/-- What the kernel keeps of the process: its size, and the regions that `sbrk` has added. -/
structure Process where
  sz : ℕ
  added : List (ℕ × ℕ) -- address and length

/-- A number of bytes, converted to the `int` that `sbrk` takes. -/
def toInt (n : ℕ) : ℤ := if n % 2 ^ 32 < 2 ^ 31 then n % 2 ^ 32 else n % 2 ^ 32 - 2 ^ 32

/-- The size that `growproc(n)` gives a process, or nothing if it fails; `grows` says whether
there is memory. -/
def newSize (grows : Bool) (sz : ℕ) (n : ℤ) : Option ℕ :=
  if 0 < n then
    if grows then some (addInt sz n) else none
  else if n < 0 then
    -- `uvmdealloc` leaves a size that would not become smaller
    some (if sz ≤ addInt sz n then sz else addInt sz n)
  else
    some sz

/-- `sys_sbrk`, with its argument converted. -/
def sysSbrk (grows : Bool) (n : ℕ) (k : Process) : Option ℕ × Process :=
  match newSize grows k.sz (toInt n) with
  | none => (none, k)
  | some sz => (some k.sz, ⟨sz, if k.sz < sz then (k.sz, sz - k.sz) :: k.added else k.added⟩)

end Xv6.Umalloc
