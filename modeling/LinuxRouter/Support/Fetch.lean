import LinuxRouter.Support.Program

/-!
# Support — Fetch

Programs that read the cells of an array, one at a time.

`Prog.scan a` runs such a program on the array `a`: its result, and the indices it read, in order.
`every_scan` carries a fact about the reads of a program, whatever it finds in the cells, to the reads
of a run.

Such a program is one of `Support/Program` with a single kind of command, whose answer is the cell.
Its result on an array is a function of the array, and the cells that it did not ask for make no
difference; both are inductions on the program.
-/

namespace Program

/-- A read of one cell. -/
inductive Fetch (I V : Type) : Type → Type where
  | cell (i : I) : Fetch I V V

namespace Fetch

variable {I V β : Type}

/-- The cell that is read. -/
def index : Fetch I V β → I
  | .cell i => i

/-- What is found in it. -/
def answer (a : I → V) : Fetch I V β → β
  | .cell i => a i

end Fetch

namespace Prog

variable {I V α β : Type}

/-- A run on an array: the result, and the indices read. -/
def scan (a : I → V) : Prog (Fetch I V) α → α × List I
  | .ret x => (x, [])
  | .cmd c k =>
      let r := (k (c.answer a)).scan a
      (r.1, c.index :: r.2)

/-- The read of one cell. -/
def fetch (i : I) : Prog (Fetch I V) V := perform (.cell i)

variable {a : I → V} {i : I} {f : V → Prog (Fetch I V) α} {p : Prog (Fetch I V) α}

@[simp] theorem scan_ret (a : I → V) (x : α) : (Prog.ret x : Prog (Fetch I V) α).scan a = (x, []) :=
  rfl

@[simp] theorem scan_fetch (a : I → V) (i : I) (f : V → Prog (Fetch I V) α) :
    (fetch i >>= f).scan a = (((f (a i)).scan a).1, i :: ((f (a i)).scan a).2) := rfl

theorem scan_bind (a : I → V) (p : Prog (Fetch I V) α) (f : α → Prog (Fetch I V) β) :
    (p >>= f).scan a =
      (((f (p.scan a).1).scan a).1, (p.scan a).2 ++ ((f (p.scan a).1).scan a).2) := by
  induction p with
  | ret x => rfl
  | cmd c k ih =>
      rw [cmd_bind, scan, ih]
      rfl

/-- Every read is of a cell with the property, whatever is found in the cells. -/
def Reads (P : I → Prop) (p : Prog (Fetch I V) α) : Prop := p.Every fun _ c => P c.index

variable {P : I → Prop}

theorem reads_ret (x : α) : (Prog.ret x : Prog (Fetch I V) α).Reads P := trivial

theorem reads_fetch (hi : P i) (hf : ∀ v, (f v).Reads P) : (fetch i >>= f).Reads P :=
  every_step hi hf

theorem Reads.bind {p : Prog (Fetch I V) α} {f : α → Prog (Fetch I V) β} (hp : p.Reads P)
    (hf : ∀ x, (f x).Reads P) : (p >>= f).Reads P :=
  Every.bind hp hf

/-- **The reads of a run.** -/
theorem Reads.scan (h : p.Reads P) (a : I → V) : ∀ i ∈ (p.scan a).2, P i := by
  induction p with
  | ret x => exact fun i hi => nomatch hi
  | cmd c k ih =>
      rintro i hi
      rcases List.mem_cons.mp hi with rfl | hi
      · exact h.1
      · exact ih _ (h.2 _) i hi

end Prog

end Program
