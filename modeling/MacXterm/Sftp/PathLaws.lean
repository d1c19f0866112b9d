import MacXterm.Qt.Resolution
import MacXterm.Sftp.RemotePath

namespace Sftp.RemotePath

open Qt QDir

theorem normalize_nil : normalize [] = ['/'] := rfl

theorem normalize_normalize (p : QString) : normalize (normalize p) = normalize p := by
  by_cases hp : p = []
  · subst hp
    rfl
  · have hne : cleanPath p ≠ [] := by
      rw [cleanPath, if_neg hp]
      exact render_ne_nil _ _ (segmentStack_canonical p)
    rw [normalize_eq hp, normalize_eq hne, cleanPath_cleanPath]

theorem resolvesTo_normalize {p : QString} (hp : p ≠ []) (q : QString) :
    normalize p = q ↔ ResolvesTo p q := by
  rw [resolvesTo_iff hp, normalize_eq hp, eq_comm]

theorem normalize_absolute {p : QString} (h : isRooted (normalize p) = true) :
    ∃ names, (∀ s ∈ names, Plain s) ∧ normalize p = absolute names := by
  by_cases hp : p = []
  · subst hp
    exact ⟨[], nofun, rfl⟩
  · rw [normalize_eq hp, cleanPath, if_neg hp] at h ⊢
    rw [isRooted_render _ _ (segmentStack_canonical p)] at h
    refine ⟨segments p, segments_plain h, ?_⟩
    rw [h, absolute, segments, List.reverse_reverse]

section Join

variable {a b c : QString}

theorem join_relative (hb : isRooted b = false) : join a b = cleanPath (a ++ '/' :: b) := by
  have hhead : b.head? ≠ some '/' := by
    simpa [isRooted] using hb
  rw [join, if_neg hhead, normalize_eq (by simp)]

theorem join_render (ha : a ≠ []) (hb : isRooted b = false) :
    join a b = render (isRooted a)
      ((b.splitOn '/').foldl (pushSegment (isRooted a)) (segmentStack a)) := by
  rw [join_relative hb, cleanPath_append a b ha]

theorem join_canonical (a b : QString) :
    Canonical (isRooted a) ((b.splitOn '/').foldl (pushSegment (isRooted a)) (segmentStack a)) :=
  foldl_pushSegment_canonical _ (segmentStack_canonical a) (not_mem_splitOn '/' b)

-- A relative path may be resolved before it is joined: a ".." in front of it stays.
theorem foldl_resolved (hb : isRooted b = false) (rooted : Bool) (start : List QString) :
    (b.splitOn '/').foldl (pushSegment rooted) start =
      (segmentStack b).reverse.foldl (pushSegment rooted) start := by
  have hfold := @foldl_pushSegment_segments rooted start [] (b.splitOn '/') trivial
    (not_mem_splitOn '/' b)
  rw [segmentStack, hb]
  exact hfold

theorem join_assoc (ha : a ≠ []) (hb : b ≠ []) (hrb : isRooted b = false)
    (hrc : isRooted c = false) : join (join a b) c = join a (join b c) := by
  have hleft := join_canonical a b
  have hright := join_canonical b c
  rw [hrb] at hright
  have hcanonical : Canonical false (segmentStack b) := hrb ▸ segmentStack_canonical b
  have hrelative : isRooted (join b c) = false := by
    rw [join_render hb hrc, hrb, isRooted_render _ _ hright]
  have hne : join a b ≠ [] := by
    rw [join_render ha hrb]
    exact render_ne_nil _ _ hleft
  have hstart : isRooted (join a b) = isRooted a ∧ segmentStack (join a b) =
      (b.splitOn '/').foldl (pushSegment (isRooted a)) (segmentStack a) := by
    rw [join_render ha hrb]
    exact ⟨isRooted_render _ _ hleft, segmentStack_render _ _ hleft⟩
  have hstack : segmentStack (join b c) =
      (c.splitOn '/').foldl (pushSegment false) (segmentStack b) := by
    rw [join_render hb hrc, hrb, segmentStack_render _ _ hright]
  rw [join_render hne hrc, join_render ha hrelative, hstart.1, hstart.2, foldl_resolved hrelative,
    hstack, foldl_resolved hrb, foldl_pushSegment_segments _ _ _ hcanonical (not_mem_splitOn '/' c)]

end Join

theorem remote_path_laws (p : QString) :
    (p = [] → normalize p = ['/']) ∧ (p ≠ [] → ∀ q, normalize p = q ↔ ResolvesTo p q) ∧
      normalize (normalize p) = normalize p ∧
      (isRooted (normalize p) = true →
        ∃ names, (∀ s ∈ names, Plain s) ∧ normalize p = absolute names) ∧
      ∀ b c, p ≠ [] → b ≠ [] → isRooted b = false → c ≠ [] → isRooted c = false →
        join (join p b) c = join p (join b c) := by
  refine ⟨?_, fun hp q => resolvesTo_normalize hp q, normalize_normalize p, normalize_absolute,
    fun b c hp hb hrb _ hrc => join_assoc hp hb hrb hrc⟩
  rintro rfl
  exact normalize_nil

theorem empty_path_is_root : ¬ ∀ p q : QString, normalize p = q ↔ ResolvesTo p q := by
  intro h
  have hdot : ResolvesTo [] ['.'] := by
    refine ⟨[], .single (.skip [] [] [] (.inl rfl)), ?_, rfl⟩
    exact @resolved_of_canonical _ [] trivial
  exact absurd ((h [] ['.']).mpr hdot) (by decide)

end Sftp.RemotePath
