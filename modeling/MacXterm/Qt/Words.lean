import Mathlib.Data.List.TakeWhile
import MacXterm.Qt.Text

namespace Qt

def words (s : QString) : List QString := (s.splitOnP isSpace).filter (· ≠ [])

-- QString::simplified: one blank between the words, none around them.
def simplified (s : QString) : QString := [' '].intercalate (words s)

-- QString::split with Qt::SkipEmptyParts.
def splitSkip (sep : Char) (s : QString) : List QString := (s.splitOn sep).filter (· ≠ [])

-- What is before and after the first of these characters: left and mid at its indexOf.
def cutAt (c : Char) (s : QString) : Option (QString × QString) :=
  match s.dropWhile (· != c) with
  | [] => none
  | _ :: rest => some (s.takeWhile (· != c), rest)

theorem cutAt_eq_some {c : Char} {s left right : QString} :
    cutAt c s = some (left, right) ↔ c ∉ left ∧ s = left ++ c :: right := by
  constructor
  · intro h
    unfold cutAt at h
    split at h
    · cases h
    · rename_i d rest hdrop
      obtain ⟨rfl, rfl⟩ := Prod.mk.inj (Option.some.inj h)
      have hd : d = c := by
        have hhead := List.head?_dropWhile_not (· != c) s
        rw [hdrop] at hhead
        simpa using hhead
      refine ⟨fun hmem => ?_, ?_⟩
      · simpa using List.mem_takeWhile_imp hmem
      · rw [← hd, ← hdrop, hd, List.takeWhile_append_dropWhile]
  · rintro ⟨hleft, rfl⟩
    have hall : ∀ d ∈ left, (d != c) = true := by
      intro d hd
      rw [bne_iff_ne]
      rintro rfl
      exact hleft hd
    unfold cutAt
    rw [List.dropWhile_append_of_pos hall, List.takeWhile_append_of_pos hall]
    simp

theorem cutAt_eq_none {c : Char} {s : QString} : cutAt c s = none ↔ c ∉ s := by
  constructor
  · intro h hmem
    obtain ⟨left, right, rfl, hleft⟩ := List.eq_append_cons_of_mem hmem
    rw [cutAt_eq_some.mpr ⟨hleft, rfl⟩] at h
    cases h
  · intro h
    cases hcut : cutAt c s with
    | none => rfl
    | some parts =>
      obtain ⟨left, right⟩ := parts
      obtain ⟨-, rfl⟩ := cutAt_eq_some.mp hcut
      exact absurd (List.mem_append_right _ List.mem_cons_self) h

theorem not_sep_of_mem_splitOnP {p : Char → Bool} {s t : QString} (ht : t ∈ s.splitOnP p) :
    ∀ c ∈ t, p c = false := by
  induction s generalizing t with
  | nil =>
    obtain rfl := List.mem_singleton.mp ht
    exact nofun
  | cons c s ih =>
    rw [List.splitOnP_cons_eq_if_modifyHead] at ht
    split at ht
    · rcases List.mem_cons.mp ht with rfl | ht
      · exact nofun
      · exact ih ht
    · rename_i hc
      obtain ⟨u, us, hu⟩ := List.exists_cons_of_ne_nil (List.splitOnP_ne_nil p s)
      rw [hu] at ih ht
      rcases List.mem_cons.mp ht with rfl | ht
      · intro d hd
        rcases List.mem_cons.mp hd with rfl | hd
        · simpa using hc
        · exact ih List.mem_cons_self d hd
      · exact ih (List.mem_cons_of_mem _ ht)

theorem mem_words {s w : QString} (hw : w ∈ words s) : w ≠ [] ∧ ∀ c ∈ w, isSpace c = false := by
  obtain ⟨hsplit, hne⟩ := List.mem_filter.mp hw
  exact ⟨by simpa using hne, not_sep_of_mem_splitOnP hsplit⟩

theorem splitSkip_simplified (s : QString) : splitSkip ' ' (simplified s) = words s := by
  have hblank (w : QString) (hw : w ∈ words s) : ' ' ∉ w := by
    intro hmem
    exact absurd ((mem_words hw).2 ' ' hmem) (by decide)
  unfold splitSkip simplified
  rcases Decidable.em (words s = []) with hnil | hne
  · rw [hnil]
    rfl
  · rw [List.splitOn_intercalate ' ' hblank hne]
    apply List.filter_eq_self.mpr
    intro w hw
    simpa using (mem_words hw).1

end Qt
