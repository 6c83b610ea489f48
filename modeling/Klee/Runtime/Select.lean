import Klee.Runtime.Fd
import Mathlib.Data.Finset.Card

/-! `select` of the POSIX runtime. -/
namespace Klee.Posix

inductive SetKind
  | read | write | except
deriving DecidableEq

/-- `fd_set`: the bits that are set. The macros change and test one bit at a time. -/
abbrev FdSet := Finset ℕ

def FD_SETSIZE : ℕ := 1024

def NFDBITS : ℕ := 64

/-- The bit that `FD_SET` and `FD_ISSET` are for: it must lie in `fds_bits`, and `1` is an `int`,
where a shift by 31 or more is not defined. -/
def fdBit (n : Int) : Option ℕ :=
  if 0 ≤ n ∧ n < FD_SETSIZE ∧ n % NFDBITS < 31 then some n.toNat else none

/-- How `select` ends without a count; `undefined` is a macro with a number that it is not for. -/
inductive SelectStop
  | undefined
  | EBADF
  | system
deriving DecidableEq

/-- `read`, `write` and `except`, the sets for the operating system, `os_nfds` and `count` -/
structure SelectState where
  out : SetKind → FdSet
  os : SetKind → FdSet
  osNfds : Int
  count : ℕ

variable (e : Env) (given : SetKind → Option FdSet)

/-- `in_read`, `in_write` and `in_except`; for a null pointer there is an empty set. -/
def selectIn (k : SetKind) : FdSet := (given k).getD ∅

/-- `FD_SET(n, p)` for the sets that have `i` -/
def setWhere (ins p : SetKind → FdSet) (i n : ℕ) (k : SetKind) : FdSet :=
  if i ∈ ins k then insert n (p k) else p k

/-- The first loop, at `i` -/
def selectOne (ins : SetKind → FdSet) (s : SelectState) (i : ℕ) :
    Except SelectStop SelectState :=
  match fdBit i with
  | none => .error .undefined
  | some bit =>
    if bit ∈ ins .read ∨ bit ∈ ins .write ∨ bit ∈ ins .except then
      match e.getFile i with
      | none => .error .EBADF
      | some j =>
        let f := e.fds j
        if f.dfile.isSome then
          .ok { s with out := setWhere ins s.out bit bit, count := s.count + 1 }
        else
          match fdBit f.fd with
          | none => .error .undefined
          | some n => .ok { s with
              os := setWhere ins s.os bit n
              osNfds := if s.osNfds ≤ f.fd then f.fd + 1 else s.osNfds }
    else .ok s

/-- The second loop, at `i`; `ready` are the sets that the operating system returns. -/
def selectBack (ready : SetKind → FdSet) (out : SetKind → FdSet) (i : ℕ) :
    Except SelectStop (SetKind → FdSet) :=
  match e.getFile i with
  | none => .ok out
  | some j =>
    let f := e.fds j
    if f.dfile.isSome then .ok out
    else if given .read = none ∧ given .write = none ∧ given .except = none then .ok out
    else
      match fdBit f.fd, fdBit i with
      | some n, some bit =>
        .ok fun k => if (given k).isSome ∧ n ∈ ready k then insert bit (out k) else out k
      | _, _ => .error .undefined

/-- The `select` of the operating system, with no timeout: -1, or a count and the sets -/
abbrev OsSelect := Int → (SetKind → FdSet) → Option (ℕ × (SetKind → FdSet))

def select (nfds : Int) (os : OsSelect) : Except SelectStop (ℕ × (SetKind → FdSet)) := do
  let fds := List.range nfds.toNat
  let s ← fds.foldlM (selectOne e (selectIn given)) ⟨fun _ => ∅, fun _ => ∅, 0, 0⟩
  if 0 < s.osNfds then
    match os s.osNfds s.os with
    | none => if s.count = 0 then .error .system else .ok (s.count, s.out)
    | some (r, ready) =>
      let out ← fds.foldlM (selectBack e given ready) s.out
      .ok (s.count + r, out)
  else .ok (s.count, s.out)

end Klee.Posix
