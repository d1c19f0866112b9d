import Mathlib.Data.List.Chain
import Mathlib.Tactic.ByContra

namespace Pacing

-- Slots visited in order, each at most two past the one before it.
def Paced (a b : Nat) : Prop :=
  a ≤ b ∧ b ≤ a + 2

def Within (l : List Nat) (m : Nat) : Prop :=
  (∃ a ∈ l, a ≤ m) ∧ ∃ b ∈ l, m ≤ b

instance (l : List Nat) (m : Nat) : Decidable (Within l m) := inferInstanceAs (Decidable (_ ∧ _))

-- A slot is visited twice or passed over only where nothing wants it.
def Steady (wanted : Nat → Prop) (a b : Nat) : Prop :=
  b = a + 1 ∨ b = a ∧ ¬ wanted a ∨ b = a + 2 ∧ ¬ wanted (a + 1)

variable {wanted : Nat → Prop} {a b m : Nat} {l : List Nat}

theorem within_singleton : Within [a] m ↔ m = a := by
  simp only [Within, List.mem_singleton, exists_eq_left]
  omega

theorem le_of_paced (h : (a :: l).IsChain Paced) : ∀ x ∈ a :: l, a ≤ x := by
  induction l generalizing a with
  | nil =>
    intro x hx
    rw [List.mem_singleton.mp hx]
  | cons b l ih =>
    obtain ⟨hab, hl⟩ := List.isChain_cons_cons.mp h
    intro x hx
    rcases List.mem_cons.mp hx with rfl | hx
    · exact le_rfl
    · exact hab.1.trans (ih hl x hx)

theorem within_of_tail (h : Within (b :: l) m) : Within (a :: b :: l) m := by
  obtain ⟨⟨x, hx, hxm⟩, y, hy, hmy⟩ := h
  exact ⟨⟨x, List.mem_cons_of_mem a hx, hxm⟩, y, List.mem_cons_of_mem a hy, hmy⟩

theorem within_tail (hab : a < m) (hbm : b ≤ m) (h : Within (a :: b :: l) m) :
    Within (b :: l) m := by
  obtain ⟨-, y, hy, hmy⟩ := h
  refine ⟨⟨b, List.mem_cons_self, hbm⟩, y, ?_, hmy⟩
  rcases List.mem_cons.mp hy with rfl | hy
  · omega
  · exact hy

theorem count_of_lt (h : (b :: l).IsChain Paced) (hm : m < b) : (b :: l).count m = 0 := by
  refine List.count_eq_zero.mpr fun hmem => ?_
  have hle := le_of_paced h m hmem
  omega

theorem steady_of_once (hab : Paced a b) (hl : (b :: l).IsChain Paced)
    (hne : ∀ m, Within (a :: b :: l) m → wanted m → (a :: b :: l).count m = 1) :
    Steady wanted a b := by
  by_cases hnext : b = a + 1
  · exact .inl hnext
  by_cases hsame : b = a
  · subst hsame
    refine .inr (.inl ⟨rfl, fun hw => ?_⟩)
    have hone := hne b ⟨⟨b, List.mem_cons_self, le_rfl⟩, b, List.mem_cons_self, le_rfl⟩ hw
    rw [List.count_cons_self, List.count_cons_self] at hone
    omega
  · have hskip : b = a + 2 := by
      unfold Paced at hab
      omega
    subst hskip
    refine .inr (.inr ⟨rfl, fun hw => ?_⟩)
    have hwithin : Within (a :: (a + 2) :: l) (a + 1) :=
      ⟨⟨a, List.mem_cons_self, by omega⟩, a + 2,
        List.mem_cons_of_mem _ List.mem_cons_self, by omega⟩
    have hone := hne (a + 1) hwithin hw
    rw [List.count_cons_of_ne (by omega), count_of_lt hl (by omega)] at hone
    omega

theorem once_cons (hab : Paced a b) (hl : (b :: l).IsChain Paced) (hsteady : Steady wanted a b) :
    (∀ m, Within (a :: b :: l) m → wanted m → (a :: b :: l).count m = 1) ↔
      ∀ m, Within (b :: l) m → wanted m → (b :: l).count m = 1 := by
  constructor
  · intro h m hm hw
    have hone := h m (within_of_tail hm) hw
    by_cases ham : a = m
    · have hb : b = m := by
        obtain ⟨⟨x, hx, hxm⟩, -⟩ := hm
        have hbx := le_of_paced hl x hx
        have := hab.1
        omega
      subst ham hb
      rw [List.count_cons_self, List.count_cons_self] at hone
      omega
    · rwa [List.count_cons_of_ne ham] at hone
  · intro h m hm hw
    obtain ⟨x, hx, hxm⟩ := hm.1
    have ham : a ≤ m := (le_of_paced (List.isChain_cons_cons.mpr ⟨hab, hl⟩) x hx).trans hxm
    by_cases heq : a = m
    · subst heq
      have hlt : a < b := by
        rcases hsteady with hnext | ⟨-, hno⟩ | ⟨hskip, -⟩
        · omega
        · exact absurd hw hno
        · omega
      rw [List.count_cons_self, count_of_lt hl hlt]
    · have hbm : b ≤ m := by
        by_contra hlt
        rcases hsteady with hnext | ⟨hsame, -⟩ | ⟨hskip, hno⟩
        · omega
        · omega
        · obtain rfl : m = a + 1 := by omega
          exact hno hw
      rw [List.count_cons_of_ne heq]
      exact h m (within_tail (by omega) hbm hm) hw

theorem once_iff_steady (h : l.IsChain Paced) :
    (∀ m, Within l m → wanted m → l.count m = 1) ↔ l.IsChain (Steady wanted) := by
  induction l with
  | nil => simp [Within]
  | cons a l ih =>
    cases l with
    | nil =>
      refine iff_of_true (fun m hm _ => ?_) (.singleton a)
      rw [within_singleton.mp hm, List.count_singleton_self]
    | cons b l =>
      obtain ⟨hab, hl⟩ := List.isChain_cons_cons.mp h
      rw [List.isChain_cons_cons, ← ih hl]
      constructor
      · intro hone
        have hsteady := steady_of_once hab hl hone
        exact ⟨hsteady, (once_cons hab hl hsteady).mp hone⟩
      · exact fun hboth => (once_cons hab hl hboth.1).mpr hboth.2

end Pacing
