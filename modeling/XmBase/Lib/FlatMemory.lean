import XmBase.Lib.Atomic
import XmBase.Lib.Bytes
/-!
# XmBase.Lib.FlatMemory

**Atomic words in a byte buffer.** The locations of an atomic program are placed in a
buffer of `n` bytes by a map to offsets; an access whose eight bytes are not all in the
buffer fails. Where the locations are inside and apart (`Placed`), an access to the
buffer does to the words what the access to the locations does (`Placed.execAt_eq`).
-/

namespace XmBase.FlatMemory

open Atomic (Access)
open Bytes (slice memcpy wordBytes ofWordBytes)

variable {n : Nat}

/-- The word at `a`. An address whose word is not all in the buffer has none. -/
def loadWord (buf : Vector UInt8 n) (a : Nat) : Option UInt64 :=
  if a + 8 ≤ n then some (ofWordBytes (slice buf a 8)) else none

/-- The buffer with `v` at `a`. -/
def storeWord (buf : Vector UInt8 n) (a : Nat) (v : UInt64) : Option (Vector UInt8 n) :=
  if a + 8 ≤ n then some (memcpy buf a (wordBytes v)) else none

/-- The buffer with `len` zero bytes at `a`. -/
def zeroFill (buf : Vector UInt8 n) (a len : Nat) : Option (Vector UInt8 n) :=
  if a + len ≤ n then some (memcpy buf a (List.replicate len 0)) else none

variable {Loc τ : Type} {address : Loc → Nat}

/-- An access to the word at its location's offset. -/
def execAt (address : Loc → Nat) (buf : Vector UInt8 n) :
    Access (fun _ : Loc => UInt64) τ → Option (Vector UInt8 n × τ)
  | .load l k => (loadWord buf (address l)).map fun v => (buf, k v)
  | .store l v t => (storeWord buf (address l) v).map fun buf' => (buf', t)
  | .rmw l f k => do
      let v ← loadWord buf (address l)
      let buf' ← storeWord buf (address l) (f v)
      some (buf', k v)

/-- Every location has eight bytes of its own: all of them in the buffer, and none of them
another location's. This is all that a program in the buffer needs of its layout. -/
structure Placed (address : Loc → Nat) (n : Nat) : Prop where
  inside : ∀ l, address l + 8 ≤ n
  apart : ∀ {l l'}, l ≠ l' → address l + 8 ≤ address l' ∨ address l' + 8 ≤ address l

/-- The words of the locations. It is the memory of the program that runs on the locations. -/
def contents (address : Loc → Nat) (buf : Vector UInt8 n) : Loc → UInt64 := fun l =>
  ofWordBytes (slice buf (address l) 8)

theorem Placed.loadWord_eq (h : Placed address n) (buf : Vector UInt8 n) (l : Loc) :
    loadWord buf (address l) = some (contents address buf l) := if_pos (h.inside l)

variable [DecidableEq Loc]

theorem Placed.storeWord_eq (h : Placed address n) (buf : Vector UInt8 n) (l : Loc) (v : UInt64) :
    ∃ buf', storeWord buf (address l) v = some buf' ∧
      contents address buf' = Function.update (contents address buf) l v := by
  refine ⟨_, if_pos (h.inside l), ?_⟩
  funext l'
  by_cases hl : l' = l
  · subst hl
    have hself : slice (memcpy buf (address l') (wordBytes v)) (address l') 8 = wordBytes v :=
      Bytes.slice_memcpy_self buf (h.inside l')
    rw [Function.update_self, contents, hself, Bytes.ofWordBytes_wordBytes]
  · rw [Function.update_of_ne hl, contents, contents]
    rcases h.apart hl with hbelow | habove
    · rw [Bytes.slice_memcpy_of_le buf _ hbelow]
    · rw [Bytes.slice_memcpy_of_ge buf 8 (by rw [Bytes.length_wordBytes]; exact habove)]

/-- **An access to the buffer is an access to the locations.** The words of the locations
change as the locations would, and the access cannot fail. -/
theorem Placed.execAt_eq (h : Placed address n) (buf : Vector UInt8 n)
    (a : Access (fun _ : Loc => UInt64) τ) :
    ∃ buf', execAt address buf a = some (buf', (a.exec (contents address buf)).2) ∧
      contents address buf' = (a.exec (contents address buf)).1 := by
  cases a with
  | load l k => exact ⟨buf, by rw [execAt, h.loadWord_eq]; rfl, rfl⟩
  | store l v t =>
      obtain ⟨buf', hstore, hcontents⟩ := h.storeWord_eq buf l v
      exact ⟨buf', by rw [execAt, hstore]; rfl, hcontents⟩
  | rmw l f k =>
      obtain ⟨buf', hstore, hcontents⟩ := h.storeWord_eq buf l (f (contents address buf l))
      refine ⟨buf', ?_, hcontents⟩
      rw [execAt, h.loadWord_eq]
      show (storeWord buf (address l) (f (contents address buf l))).bind _ = _
      rw [hstore]
      rfl

/-- One value stored to a list of locations. Afterwards each of them holds it, and every
other location what it held. -/
theorem Placed.storeAll (h : Placed address n) (v : UInt64) (ls : List Loc) (buf : Vector UInt8 n) :
    ∃ buf', ls.foldlM (fun buf l => storeWord buf (address l) v) buf = some buf' ∧
      ∀ l, contents address buf' l = if l ∈ ls then v else contents address buf l := by
  induction ls generalizing buf with
  | nil => exact ⟨buf, rfl, fun l => rfl⟩
  | cons l ls ih =>
      obtain ⟨buf₁, hstore, hcontents₁⟩ := h.storeWord_eq buf l v
      obtain ⟨buf', hrest, hcontents⟩ := ih buf₁
      refine ⟨buf', ?_, ?_⟩
      · rw [List.foldlM_cons, hstore]
        exact hrest
      · intro l'
        rw [hcontents, hcontents₁]
        by_cases hmem : l' ∈ ls
        · rw [if_pos hmem, if_pos (List.mem_cons_of_mem l hmem)]
        · by_cases hl : l' = l
          · subst hl
            rw [if_neg hmem, Function.update_self, if_pos List.mem_cons_self]
          · have hcons : l' ∉ l :: ls := by simp [hl, hmem]
            rw [if_neg hmem, Function.update_of_ne hl, if_neg hcons]

end XmBase.FlatMemory
