import Mathlib.Data.Char
import Mathlib.Data.List.Lex
import MacXterm.Lib.WeakOrder
import MacXterm.Sftp.Listing

namespace Sftp

open Qt TotalPreorder

variable {nameLess : QString → QString → Bool}

def isParent (e : SftpEntry) : Bool := e.name = ['.', '.']

def place (e : SftpEntry) : Nat := if isParent e then 0 else if e.isDir then 1 else 2

def EntryLe (nameLess : QString → QString → Bool) : SftpEntry → SftpEntry → Prop :=
  Ranked place fun a b => nameLess b.name a.name = false

theorem entryLess_eq_false (hname : TotalPreorder fun a b => nameLess b a = false)
    (a b : SftpEntry) : entryLess nameLess a b = false ↔ EntryLe nameLess b a := by
  unfold entryLess EntryLe Ranked place isParent
  by_cases ha : a.name = ['.', '.']
  · by_cases hb : b.name = ['.', '.']
    · have hrefl := hname.refl ['.', '.']
      simp [ha, hb, hrefl]
    · cases b.isDir <;> simp [ha, hb]
  · by_cases hb : b.name = ['.', '.']
    · cases a.isDir <;> simp [ha, hb]
    · cases a.isDir <;> cases b.isDir <;> simp [ha, hb]

theorem total_preorder_entryLe (hname : TotalPreorder fun a b => nameLess b a = false) :
    TotalPreorder (EntryLe nameLess) := (hname.comap SftpEntry.name).ranked place

theorem entryLess_strict_weak (hname : TotalPreorder fun a b => nameLess b a = false) :
    IsStrictWeakOrder SftpEntry fun a b => entryLess nameLess a b = true := by
  have hsame : (fun a b => entryLess nameLess a b = true) = fun a b => ¬EntryLe nameLess b a := by
    funext a b
    rw [← entryLess_eq_false hname, Bool.not_eq_false]
  rw [hsame]
  exact (total_preorder_entryLe hname).strict_weak

def ParentsFirst (entries : List SftpEntry) : Prop :=
  entries.Pairwise fun a b => isParent b → isParent a

def DirectoriesFirst (entries : List SftpEntry) : Prop :=
  entries.Pairwise fun a b => b.isDir → a.isDir

def ByName (nameLess : QString → QString → Bool) (entries : List SftpEntry) : Prop :=
  entries.Pairwise fun a b => a.isDir = b.isDir → nameLess b.name a.name = false

structure Listed (nameLess : QString → QString → Bool) (entries sorted : List SftpEntry) :
    Prop where
  perm : sorted.Perm entries
  parents : ParentsFirst sorted
  directories : DirectoriesFirst (sorted.filter fun e => !isParent e)
  names : ByName nameLess (sorted.filter fun e => !isParent e)

theorem place_le_of_le {a b : SftpEntry} (h : EntryLe nameLess a b) : place a ≤ place b := by
  rcases h with hlt | ⟨heq, -⟩
  · exact Nat.le_of_lt hlt
  · exact Nat.le_of_eq heq

theorem place_other {e : SftpEntry} (h : ¬isParent e) : place e = if e.isDir then 1 else 2 :=
  if_neg h

theorem parents_of_le {a b : SftpEntry} (h : EntryLe nameLess a b) (hb : isParent b) :
    isParent a := by
  have hzero : place b = 0 := if_pos hb
  have hle := place_le_of_le h
  by_contra hother
  rw [hzero, place_other hother] at hle
  split at hle <;> omega

theorem directories_of_le {a b : SftpEntry} (h : EntryLe nameLess a b) (ha : ¬isParent a)
    (hb : ¬isParent b) (hdir : b.isDir) : a.isDir := by
  have hone : place b = 1 := by rw [place_other hb, if_pos hdir]
  have hle := place_le_of_le h
  by_contra hfile
  rw [hone, place_other ha, if_neg hfile] at hle
  omega

theorem names_of_le {a b : SftpEntry} (h : EntryLe nameLess a b) (ha : ¬isParent a)
    (hb : ¬isParent b) (hdir : a.isDir = b.isDir) : nameLess b.name a.name = false := by
  have hsame : place a = place b := by rw [place_other ha, place_other hb, hdir]
  rcases h with hlt | ⟨-, hle⟩
  · omega
  · exact hle

-- What every sort that is right about entryLess gives, std::sort too.
theorem listed_of_sorted {entries sorted : List SftpEntry} (hperm : sorted.Perm entries)
    (hsorted : sorted.Pairwise (EntryLe nameLess)) : Listed nameLess entries sorted := by
  have hothers : (sorted.filter fun e => !isParent e).Pairwise fun a b =>
      EntryLe nameLess a b ∧ ¬isParent a ∧ ¬isParent b := by
    refine (hsorted.filter _).imp_of_mem fun ha hb hle => ⟨hle, ?_, ?_⟩
    · simpa using (List.mem_filter.mp ha).2
    · simpa using (List.mem_filter.mp hb).2
  refine ⟨hperm, ?_, ?_, ?_⟩
  · exact hsorted.imp parents_of_le
  · exact hothers.imp fun ⟨hle, ha, hb⟩ => directories_of_le hle ha hb
  · exact hothers.imp fun ⟨hle, ha, hb⟩ => names_of_le hle ha hb

theorem sorted_sortListing (hname : TotalPreorder fun a b => nameLess b a = false)
    (entries : List SftpEntry) : (sortListing nameLess entries).Pairwise (EntryLe nameLess) := by
  have hle (a b : SftpEntry) : (!entryLess nameLess b a) = true ↔ EntryLe nameLess a b := by
    rw [Bool.not_eq_true', entryLess_eq_false hname]
  have horder := total_preorder_entryLe hname
  have htrans (a b c : SftpEntry) (hab : (!entryLess nameLess b a) = true)
      (hbc : (!entryLess nameLess c b) = true) : (!entryLess nameLess c a) = true :=
    (hle a c).mpr (horder.trans a b c ((hle a b).mp hab) ((hle b c).mp hbc))
  have htotal (a b : SftpEntry) :
      ((!entryLess nameLess b a) || !entryLess nameLess a b) = true := by
    rw [Bool.or_eq_true, hle, hle]
    exact horder.total a b
  exact (List.pairwise_mergeSort htrans htotal entries).imp fun h => (hle _ _).mp h

theorem sortListing_listed (hname : TotalPreorder fun a b => nameLess b a = false) :
    (IsStrictWeakOrder SftpEntry fun a b => entryLess nameLess a b = true) ∧
      ∀ entries, Listed nameLess entries (sortListing nameLess entries) := by
  refine ⟨entryLess_strict_weak hname, fun entries => ?_⟩
  exact listed_of_sorted (sortListing_perm nameLess entries) (sorted_sortListing hname entries)

def lowered (name : QString) : QString := name.map Char.toLower

-- QString::compare without regard to case, for letters of ASCII.
def caseLess (a b : QString) : Bool := decide (lowered a < lowered b)

theorem total_preorder_caseLess : TotalPreorder fun a b => caseLess b a = false where
  trans a b c hab hbc := by
    have hab := not_lt.mp (of_decide_eq_false hab)
    have hbc := not_lt.mp (of_decide_eq_false hbc)
    exact decide_eq_false (not_lt.mpr (hab.trans hbc))
  total a b := by
    rcases le_total (lowered a) (lowered b) with hle | hle
    · exact .inl (decide_eq_false (not_lt.mpr hle))
    · exact .inr (decide_eq_false (not_lt.mpr hle))

theorem sortListing_listed_caseLess :
    (IsStrictWeakOrder SftpEntry fun a b => entryLess caseLess a b = true) ∧
      ∀ entries, Listed caseLess entries (sortListing caseLess entries) :=
  sortListing_listed total_preorder_caseLess

def entryNamed (name : QString) (isDir : Bool) : SftpEntry := ⟨name, 0, isDir, 0, 0⟩

theorem sortListing_sorted {entries : List SftpEntry}
    (h : entries.Pairwise fun a b => (!entryLess nameLess b a) = true) :
    sortListing nameLess entries = entries := List.mergeSort_of_pairwise h

theorem parent_breaks_order :
    ¬DirectoriesFirst
        (sortListing caseLess [entryNamed ['.', '.'] false, entryNamed ['a'] true]) ∧
      ¬ByName caseLess
        (sortListing caseLess [entryNamed ['.', '.'] true, entryNamed ['!'] true]) := by
  constructor
  · rw [sortListing_sorted (by decide), DirectoriesFirst]
    decide
  · rw [sortListing_sorted (by decide), ByName]
    decide

end Sftp
