import Mathlib.Order.Defs.Unbundled

structure TotalPreorder {α : Type} (le : α → α → Prop) : Prop extends IsTrans α le, Std.Total le

namespace TotalPreorder

variable {α β : Type} {le : α → α → Prop}

theorem refl (h : TotalPreorder le) (a : α) : le a a := (h.total a a).elim id id

theorem strict_weak (h : TotalPreorder le) : IsStrictWeakOrder α fun a b => ¬le b a where
  irrefl a hlt := hlt (h.refl a)
  trans a b c hab hbc hca := hab (h.trans b c a ((h.total b c).resolve_right hbc) hca)
  incomp_trans a b c hab hbc := by
    have hle := h.trans a b c (Classical.not_not.mp hab.2) (Classical.not_not.mp hbc.2)
    have hge := h.trans c b a (Classical.not_not.mp hbc.1) (Classical.not_not.mp hab.1)
    exact ⟨Classical.not_not.mpr hge, Classical.not_not.mpr hle⟩

theorem comap (h : TotalPreorder le) (f : β → α) : TotalPreorder fun a b => le (f a) (f b) where
  trans a b c := h.trans (f a) (f b) (f c)
  total a b := h.total (f a) (f b)

def Ranked (rank : α → Nat) (le : α → α → Prop) (a b : α) : Prop :=
  rank a < rank b ∨ rank a = rank b ∧ le a b

theorem ranked (h : TotalPreorder le) (rank : α → Nat) : TotalPreorder (Ranked rank le) where
  trans a b c hab hbc := by
    rcases hab with hab | ⟨hab, hle⟩
    · exact .inl (hbc.elim (Nat.lt_trans hab) fun hbc => hbc.1 ▸ hab)
    · rcases hbc with hbc | ⟨hbc, hle'⟩
      · exact .inl (hab ▸ hbc)
      · exact .inr ⟨hab.trans hbc, h.trans a b c hle hle'⟩
  total a b := by
    rcases Nat.lt_trichotomy (rank a) (rank b) with hlt | heq | hgt
    · exact .inl (.inl hlt)
    · exact (h.total a b).imp (fun hle => .inr ⟨heq, hle⟩) fun hle => .inr ⟨heq.symm, hle⟩
    · exact .inr (.inl hgt)

end TotalPreorder
