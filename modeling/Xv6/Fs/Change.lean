import Xv6.Fs.Walk

/-!
# What system calls do to the tree

The changes of names and links that a system call can make.

## Main definitions

* `Linked`, `Created`, `Unlinked` — a name is added to a file, a node is made, a name is removed.
* `Effect` — what a call does to the nodes: at most one such change, and freeing before and
  after.
-/

namespace Xv6.Fs

/-- The entry `sys_unlink` stores: all bytes are zero. -/
def zeroEntry : Dirent := ⟨0, List.replicate dirsiz 0⟩

theorem zeroEntry_bytes : zeroEntry.bytes = List.replicate direntSize 0 := by decide

/-- The contents `create` gives a new directory. -/
def dotEntries (j i : ℕ) : List UInt8 :=
  setDirent (setDirent [] 0 (newEntry dot j)) 1 (newEntry dotdot i)

/-- A place for a new name in a directory. -/
structure Place (nd : Node) (name : List UInt8) (k : ℕ) : Prop where
  type : nd.type = tDir
  whole : direntSize ∣ nd.data.length
  absent : lookup nd.data name = none
  vacant : Vacant nd.data k

/-- A file gets one more name, as `sys_link` does it. -/
inductive Linked (N : Nodes) : Nodes → Prop
  | mk {i j k : ℕ} {nd x : Node} {name : List UInt8} (hi : N i = some nd) (hp : Place nd name k)
      (hj : N j = some x) (hx : x.type ≠ tDir) :
      Linked N (Function.update (Function.update N j (some { x with nlink := x.nlink + 1 })) i
        (some (nd.setEntry k (newEntry name j))))

/-- A node is made and gets a name, as `create` does it. -/
inductive Created (n : ℕ) (N : Nodes) : Nodes → Prop
  | file {i j k : ℕ} {nd : Node} {name : List UInt8} {type major minor : BitVec 16}
      (hi : N i = some nd) (hp : Place nd name k) (hj : N j = none) (hlt : j < n) (h0 : j ≠ 0)
      (ht : type ≠ tDir) :
      Created n N (Function.update (Function.update N j (some ⟨type, major, minor, 1, []⟩)) i
        (some (nd.setEntry k (newEntry name j))))
  | dir {i j k : ℕ} {nd : Node} {name : List UInt8} {major minor : BitVec 16}
      (hi : N i = some nd) (hp : Place nd name k) (hj : N j = none) (hlt : j < n) (h0 : j ≠ 0) :
      Created n N (Function.update
        (Function.update N i (some { nd.setEntry k (newEntry name j) with nlink := nd.nlink + 1 }))
        j (some ⟨tDir, major, minor, 1, dotEntries j i⟩))

/-- A name is removed, as `sys_unlink` does it. -/
inductive Unlinked (N : Nodes) : Nodes → Prop
  | mk {i j k : ℕ} {nd x : Node} {name : List UInt8} (hi : N i = some nd) (ht : nd.type = tDir)
      (hk : lookup nd.data name = some k) (hdot : cname name ≠ dot ∧ cname name ≠ dotdot)
      (hjk : (dirent nd.data k).inum.toNat = j) (hj : N j = some x) (hij : i ≠ j)
      (hlink : 1 ≤ x.nlink.toInt)
      (hempty : x.type = tDir → ∀ m, 2 ≤ m → m < slots x.data → (dirent x.data m).inum.toNat = 0) :
      Unlinked N (Function.update (Function.update N i (some { nd.setEntry k zeroEntry with
          nlink := if x.type = tDir then nd.nlink - 1 else nd.nlink }))
        j (some { x with nlink := x.nlink - 1 }))

/-- Some link count is the largest there is. -/
def Saturated (N : Nodes) : Prop := ∃ i nd, N i = some nd ∧ nd.nlink = 0xffff

/-- What a call does to the nodes.  If `H` holds, a call that adds names frees nothing, unless a
link count wraps. -/
inductive Effect (H : Prop) (n : ℕ) (N N' : Nodes) : Prop
  | freed (h : Freed N N')
  | data {N₁ : Nodes} {i : ℕ} {nd : Node} {d : List UInt8} (h₁ : Freed N N₁)
      (hi : N₁ i = some nd) (ht : nd.type ≠ tDir)
      (h₂ : Freed (Function.update N₁ i (some { nd with data := d })) N')
  | link {N₁ M : Nodes} (h₁ : Freed N N₁) (h : Linked N₁ M) (h₂ : Freed M N')
      (hH : H → N₁ = N ∧ (N' = M ∨ Saturated N))
  | create {N₁ M : Nodes} (h₁ : Freed N N₁) (h : Created n N₁ M) (h₂ : Freed M N')
      (hH : H → N₁ = N ∧ (N' = M ∨ Saturated N))
  | unlink {N₁ M : Nodes} (h₁ : Freed N N₁) (h : Unlinked N₁ M) (h₂ : Freed M N')
      (hH : H → N₁ = N)

variable {n j : ℕ} {name : List UInt8}

theorem newEntry_inum (hj : j < n) (hn : n ≤ 2 ^ 16) : (newEntry name j).inum.toNat = j := by
  show (BitVec.ofNat 16 j).toNat = j
  rw [BitVec.toNat_ofNat, Nat.mod_eq_of_lt (by omega)]

theorem length_newEntry : (newEntry name j).name.length = dirsiz := length_strncpy ..

theorem cname_newEntry : cname (newEntry name j).name = cname name := cname_strncpy name

end Xv6.Fs
