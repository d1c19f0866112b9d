import MacXterm.Lib.MachineInt

inductive Access where
  | read (i : Int) (size : Nat)
  | write (i count : Int)
  | request (n : Int)

def Access.Safe : Access → Prop
  | .read i size => 0 ≤ i ∧ i < size
  | .write i count => 0 ≤ i ∧ i < count
  | .request n => 0 ≤ n

def Safe (trace : List Access) : Prop := ∀ a ∈ trace, a.Safe

theorem safe_nil : Safe [] := nofun

theorem safe_cons {a : Access} {trace : List Access} :
    Safe (a :: trace) ↔ a.Safe ∧ Safe trace := List.forall_mem_cons

theorem safe_append {a b : List Access} : Safe (a ++ b) ↔ Safe a ∧ Safe b :=
  List.forall_mem_append

def readsAt (size : Nat) (p : Int) (reads : List Nat) : List Access :=
  reads.map fun (o : Nat) => .read (int32 (p + o)) size

-- A reader that asks for n bytes at its cursor, reads some of them, passes over all n and goes on
-- by what it read.
inductive Plan where
  | done
  | take (n : Nat) (reads : List Nat) (next : List UInt8 → Plan)
  | touch (writes : List Access) (next : Plan)

namespace Plan

def run (mem : Int → UInt8) (size : Nat) : Plan → Int → List Access
  | .done, _ => []
  | .take n reads next, p =>
      if size < int32 (p + n) then []
      else readsAt size p reads ++
        (next (reads.map fun (o : Nat) => mem (int32 (p + o)))).run mem size (int32 (p + n))
  | .touch writes next, p => writes ++ next.run mem size p

end Plan

structure Piece where
  start : Int
  size : Nat
  reads : List Nat

namespace Piece

def stop (d : Piece) : Int := d.start + d.size

def Within (size : Nat) (d : Piece) : Prop :=
  ∀ o ∈ d.reads, d.start + o < size ∧ d.start + o < 2 ^ 31

-- Only the last piece may end where its end is no int, and then what is read of it lies below.
def Fit (size : Nat) : List Piece → Prop
  | [] => True
  | d :: rest =>
      if d.stop < 2 ^ 31 then (size : Int) < d.stop ∨ 0 ≤ d.start ∧ Fit size rest
      else d.Within size ∧ rest = []

section Fit

variable {size : Nat} {d : Piece} {rest : List Piece}

theorem fit_below (h : d.stop < 2 ^ 31) :
    Fit size (d :: rest) ↔ (size : Int) < d.stop ∨ 0 ≤ d.start ∧ Fit size rest := by
  rw [Fit, if_pos h]

theorem fit_beyond (h : ¬ d.stop < 2 ^ 31) :
    Fit size (d :: rest) ↔ d.Within size ∧ rest = [] := by
  rw [Fit, if_neg h]

end Fit

end Piece

namespace Plan

def pieces (mem : Int → UInt8) : Plan → Int → List Piece
  | .done, _ => []
  | .take n reads next, p =>
      ⟨p, n, reads⟩ :: (next (reads.map fun (o : Nat) => mem (p + o))).pieces mem (p + n)
  | .touch _ next, p => next.pieces mem p

-- What is left of these bytes behind the plan, where they last.
def rest : Plan → List UInt8 → Option (List UInt8)
  | .done, b => some b
  | .take n reads next, b =>
      if b.length < n then none else (next (reads.map fun o => b.getD o 0)).rest (b.drop n)
  | .touch _ next, b => next.rest b

def Sound (limit : Nat) : Plan → Prop
  | .done => True
  | .take n reads next =>
      n ≤ limit ∧ 0 ∈ reads ∧ (∀ o ∈ reads, o < n) ∧ ∀ b, (next b).Sound limit
  | .touch writes next => Safe writes ∧ next.Sound limit

section Safety

variable {mem : Int → UInt8} {size limit : Nat}

theorem safe_readsAt {p : Int} {reads : List Nat} (hlow : -2 ^ 31 ≤ p) (hhigh : p < 2 ^ 31)
    (hzero : 0 ∈ reads) (hshort : ∀ o ∈ reads, o ≤ 2 ^ 31) :
    Safe (readsAt size p reads) ↔ 0 ≤ p ∧ ∀ o ∈ reads, p + o < size ∧ p + o < 2 ^ 31 := by
  simp only [Safe, readsAt, List.forall_mem_map, Access.Safe]
  constructor
  · intro h
    have hfirst := h 0 hzero
    rw [int32_eq (by omega) (by omega)] at hfirst
    refine ⟨by omega, fun o ho => ?_⟩
    have hread := h o ho
    have hle := hshort o ho
    have hcases := int32_cases (x := p + o) (by omega) (by omega)
    omega
  · rintro ⟨hpos, hreads⟩ o ho
    obtain ⟨hsize, hint⟩ := hreads o ho
    rw [int32_eq (by omega) hint]
    exact ⟨by omega, hsize⟩

-- Past 2 ^ 31 the cursor is negative and every guard lets it through.
theorem safe_run_wrapped {plan : Plan} (hplan : plan.Sound limit) {q : Int} (hlow : -2 ^ 31 ≤ q)
    (hneg : q < 0) (hroom : q + limit ≤ 0) (p : Int) :
    Safe (plan.run mem size q) ↔ plan.pieces mem p = [] := by
  induction plan with
  | done => exact iff_of_true safe_nil rfl
  | take n reads next _ =>
    obtain ⟨hn, hzero, -, -⟩ := hplan
    have hguard : ¬ (size : Int) < int32 (q + n) := by
      rw [int32_eq (by omega) (by omega)]
      omega
    rw [run, if_neg hguard, safe_append]
    refine iff_of_false (fun h => ?_) (List.cons_ne_nil _ _)
    have hread : Access.Safe (.read (int32 (q + (0 : Nat))) size) :=
      h.1 _ (List.mem_map_of_mem hzero)
    rw [int32_eq (by omega) (by omega)] at hread
    have hpos := hread.1
    omega
  | touch writes next ih =>
    obtain ⟨hwrites, hnext⟩ := hplan
    rw [run, safe_append, ih hnext]
    exact and_iff_right hwrites

theorem safe_run_iff {plan : Plan} (hplan : plan.Sound limit) (hlimit : limit ≤ 2 ^ 30) {p : Int}
    (hlow : -2 ^ 31 ≤ p) (hhigh : p < 2 ^ 31) :
    Safe (plan.run mem size p) ↔ Piece.Fit size (plan.pieces mem p) := by
  induction plan generalizing p with
  | done => exact iff_of_true safe_nil trivial
  | take n reads next ih =>
    obtain ⟨hn, hzero, hreads, hnext⟩ := hplan
    have hshort : ∀ o ∈ reads, o ≤ 2 ^ 31 := fun o ho => by
      have hlt := hreads o ho
      omega
    have hspan : Safe (readsAt size p reads) ↔ _ := safe_readsAt hlow hhigh hzero hshort
    have hsame (h : ∀ o ∈ reads, p + o < size ∧ p + o < 2 ^ 31) :
        (reads.map fun (o : Nat) => mem (int32 (p + o))) =
          reads.map fun (o : Nat) => mem (p + o) := by
      refine List.map_congr_left fun o ho => ?_
      rw [int32_eq (by omega) (h o ho).2]
    rw [run, pieces]
    by_cases hint : p + n < 2 ^ 31
    · rw [Piece.fit_below (show Piece.stop ⟨p, n, reads⟩ < 2 ^ 31 from hint),
        int32_eq (by omega) hint]
      by_cases hsize : (size : Int) < p + n
      · rw [if_pos hsize]
        exact iff_of_true safe_nil (.inl hsize)
      · have hall : ∀ o ∈ reads, p + o < size ∧ p + o < 2 ^ 31 := by
          intro o ho
          have hlt := hreads o ho
          omega
        rw [if_neg hsize, safe_append, hspan, hsame hall, ih _ (hnext _) (by omega) hint]
        constructor
        · rintro ⟨⟨hpos, -⟩, hfit⟩
          exact .inr ⟨hpos, hfit⟩
        · rintro (h | ⟨hpos, hfit⟩)
          · exact absurd h hsize
          · exact ⟨⟨hpos, hall⟩, hfit⟩
    · have hcases := int32_cases (x := p + n) (by omega) (by omega)
      have hwrapped : int32 (p + n) = p + n - 2 ^ 32 := by omega
      rw [Piece.fit_beyond (show ¬ Piece.stop ⟨p, n, reads⟩ < 2 ^ 31 from hint), hwrapped,
        if_neg (by omega), safe_append, hspan]
      constructor
      · rintro ⟨⟨-, hall⟩, hrest⟩
        rw [safe_run_wrapped (hnext _) (by omega) (by omega) (by omega) (p + n), hsame hall] at hrest
        exact ⟨hall, hrest⟩
      · rintro ⟨hall, hrest⟩
        refine ⟨⟨by omega, hall⟩, ?_⟩
        rwa [safe_run_wrapped (hnext _) (by omega) (by omega) (by omega) (p + n), hsame hall]
  | touch writes next ih =>
    obtain ⟨hwrites, hnext⟩ := hplan
    rw [run, pieces, safe_append, ih hnext hlow hhigh]
    exact and_iff_right hwrites

end Safety

end Plan
