import Mathlib.Algebra.Ring.Int.Defs
import MacXterm.Sftp.SftpConnection

namespace Sftp

open Qt

-- A transfer has failed with -1, or the destination holds all of the source.
def Truthful (t : Transfer) (source : QByteArray) (replied : Prop) : Prop :=
  t.ret = -1 ∨ t.ret = source.length ∧ t.dest = some source ∧ replied

def received (chunks : List Chunk) : QByteArray := chunks.flatMap Chunk.bytes

def accepted (chunks : List Chunk) : QByteArray := chunks.flatMap Chunk.kept

theorem kept_length_le (c : Chunk) : c.kept.length ≤ c.bytes.length := List.length_take_le' _ _

theorem accepted_length_le (chunks : List Chunk) :
    (accepted chunks).length ≤ (received chunks).length := by
  induction chunks with
  | nil => exact Nat.le_refl _
  | cons c chunks ih =>
    have hc := kept_length_le c
    simp only [accepted, received, List.flatMap_cons, List.length_append] at ih ⊢
    omega

theorem accepted_all {chunks : List Chunk}
    (h : (received chunks).length ≤ (accepted chunks).length) :
    ∀ c ∈ chunks, c.kept = c.bytes := by
  induction chunks with
  | nil => exact nofun
  | cons c chunks ih =>
    have hc := kept_length_le c
    have hrest := accepted_length_le chunks
    simp only [accepted, received, List.flatMap_cons, List.length_append] at ih h hrest
    intro d hd
    rcases List.mem_cons.mp hd with rfl | hd
    · exact (List.take_prefix _ _).eq_of_length_le (by change d.bytes.length ≤ d.kept.length; omega)
    · exact ih (by omega) d hd

theorem accepted_eq {chunks : List Chunk} (h : ∀ c ∈ chunks, c.kept = c.bytes) :
    accepted chunks = received chunks := List.flatMap_congr h

theorem onDisk_iff {chunks : List Chunk} {source : QByteArray} {onDisk : Nat}
    (h : received chunks <+: source) :
    (accepted chunks).take onDisk = source ↔
      received chunks = source ∧ (∀ c ∈ chunks, c.kept = c.bytes) ∧ source.length ≤ onDisk := by
  constructor
  · intro he
    have hlength := congrArg List.length he
    have hle := accepted_length_le chunks
    have hpre := h.length_le
    rw [List.length_take] at hlength
    refine ⟨h.eq_of_length_le (by omega), accepted_all (by omega), by omega⟩
  · rintro ⟨hall, hkept, hdisk⟩
    rw [accepted_eq hkept, hall, List.take_of_length_le hdisk]

theorem stored_iff {body source : QByteArray} {stored : Nat} (h : body <+: source) :
    body.take stored = source ↔ body = source ∧ source.length ≤ stored := by
  constructor
  · intro he
    have hlength := congrArg List.length he
    have hpre := h.length_le
    rw [List.length_take] at hlength
    exact ⟨h.eq_of_length_le (by omega), by omega⟩
  · rintro ⟨rfl, hstored⟩
    exact List.take_of_length_le hstored

theorem truthful_failed (source : QByteArray) (replied : Prop) :
    Truthful .failed source replied := .inl rfl

theorem truthful_iff {ret : Int} {dest : Option QByteArray} {source : QByteArray}
    {replied : Prop} (h : 0 ≤ ret) :
    Truthful ⟨ret, dest⟩ source replied ↔
      ret = source.length ∧ dest = some source ∧ replied := by
  refine ⟨fun ht => ht.resolve_left ?_, .inr⟩
  intro he
  change ret = -1 at he
  omega

namespace FtpClient

def arrivals : List (Option Chunk) → List Chunk
  | [] => []
  | none :: _ => []
  | some chunk :: turns => chunk :: arrivals turns

def DownloadResults.chunks (r : DownloadResults) : List Chunk := arrivals r.turns ++ [r.tail]

def DownloadResults.Refused (r : DownloadResults) : Prop :=
  r.ready = false ∨ r.pasv = false ∨ r.retr / 100 ≠ 1 ∨ r.opened = false

def UploadResults.Refused (r : UploadResults) : Prop :=
  r.ready = false ∨ r.opened = false ∨ r.pasv = false ∨ r.stor / 100 ≠ 1

theorem readLoop_eq (turns : List (Option Chunk)) (total : Int) (file : QByteArray) :
    readLoop turns total file =
      (total + (received (arrivals turns)).length, file ++ accepted (arrivals turns)) := by
  induction turns generalizing total file with
  | nil => simp [readLoop, arrivals, received, accepted]
  | cons turn turns ih =>
    cases turn with
    | none => simp [readLoop, arrivals, received, accepted]
    | some chunk =>
      rw [readLoop, ih]
      simp [arrivals, received, accepted, Int.add_assoc]

theorem download_refused {r : DownloadResults} (h : r.Refused) : download r = .failed := by
  unfold download
  rcases h with h | h | h | h <;> simp [h]

theorem download_accepted {r : DownloadResults} (h : ¬r.Refused) :
    download r = ⟨(received r.chunks).length, some ((accepted r.chunks).take r.onDisk)⟩ := by
  simp only [DownloadResults.Refused, not_or] at h
  obtain ⟨h1, h2, h3, h4⟩ := h
  simp [download, h1, h2, h3, h4, readLoop_eq, DownloadResults.chunks, received, accepted]

theorem download_truthful_iff (source : QByteArray) (r : DownloadResults)
    (h : received r.chunks <+: source) :
    Truthful (download r) source (r.reply / 100 = 2) ↔
      r.Refused ∨ (received r.chunks = source ∧ (∀ c ∈ r.chunks, c.kept = c.bytes) ∧
        source.length ≤ r.onDisk ∧ r.reply / 100 = 2) := by
  by_cases hr : r.Refused
  · rw [download_refused hr]
    exact ⟨fun _ => .inl hr, fun _ => truthful_failed _ _⟩
  · rw [download_accepted hr, truthful_iff (Int.natCast_nonneg _), Option.some.injEq,
      onDisk_iff h]
    constructor
    · rintro ⟨-, ⟨hall, hkept, hdisk⟩, hreply⟩
      exact .inr ⟨hall, hkept, hdisk, hreply⟩
    · intro hok
      obtain ⟨hall, hkept, hdisk, hreply⟩ := hok.resolve_left hr
      exact ⟨by rw [hall], ⟨hall, hkept, hdisk⟩, hreply⟩

theorem upload_truthful_iff (source : QByteArray) (r : UploadResults) (h : r.body <+: source) :
    Truthful (upload r) source (r.reply / 100 = 2) ↔
      r.Refused ∨ (r.body = source ∧ source.length ≤ r.stored ∧ r.reply / 100 = 2) := by
  by_cases hr : r.Refused
  · have hfail : upload r = .failed := by
      unfold upload
      rcases hr with h | h | h | h <;> simp [h]
    rw [hfail]
    exact ⟨fun _ => .inl hr, fun _ => truthful_failed _ _⟩
  · have hrun : upload r = ⟨r.body.length, some (r.body.take r.stored)⟩ := by
      simp only [UploadResults.Refused, not_or] at hr
      obtain ⟨h1, h2, h3, h4⟩ := hr
      simp [upload, h1, h2, h3, h4]
    rw [hrun, truthful_iff (Int.natCast_nonneg _), Option.some.injEq, stored_iff h]
    constructor
    · rintro ⟨-, ⟨hall, hstored⟩, hreply⟩
      exact .inr ⟨hall, hstored, hreply⟩
    · intro hok
      obtain ⟨hall, hstored, hreply⟩ := hok.resolve_left hr
      exact ⟨by rw [hall], ⟨hall, hstored⟩, hreply⟩

end FtpClient

namespace SftpConnection

def DownloadResults.Refused (r : DownloadResults) : Prop :=
  r.session = false ∨ r.handle = false ∨ r.opened = false

-- A failure that the download sees: a local write that is short, or an error of the remote read.
def DownloadResults.Broken (r : DownloadResults) : Prop :=
  (∃ c ∈ r.reads, c.written ≠ c.bytes.length) ∨ r.last < 0

theorem kept_of_written {c : Chunk} (h : c.written = c.bytes.length) : c.kept = c.bytes := by
  rw [Chunk.kept, h, Int.toNat_natCast, List.take_length]

theorem readLoop_broken (last : Int) (reads : List Chunk) (total : Int) (file : QByteArray)
    (h : (∃ c ∈ reads, c.written ≠ c.bytes.length) ∨ last < 0) :
    readLoop last reads total file = none := by
  induction reads generalizing total file with
  | nil =>
    rcases h with ⟨c, hc, -⟩ | h
    · exact absurd hc List.not_mem_nil
    · rw [readLoop, if_pos h]
  | cons c reads ih =>
    rw [readLoop]
    split
    · rfl
    · rename_i hc
      refine ih _ _ ?_
      rcases h with ⟨d, hd, hne⟩ | h
      · rcases List.mem_cons.mp hd with rfl | hd
        · exact absurd hne hc
        · exact .inl ⟨d, hd, hne⟩
      · exact .inr h

theorem readLoop_whole {last : Int} {reads : List Chunk} (total : Int) (file : QByteArray)
    (h : ∀ c ∈ reads, c.written = c.bytes.length) (hlast : ¬last < 0) :
    readLoop last reads total file =
      some (total + (received reads).length, file ++ accepted reads) := by
  induction reads generalizing total file with
  | nil => simp [readLoop, hlast, received, accepted]
  | cons c reads ih =>
    have hc := h c List.mem_cons_self
    rw [readLoop, if_neg (not_not.mpr hc), ih _ _ fun d hd => h d (List.mem_cons_of_mem _ hd)]
    simp [received, accepted, Int.add_assoc]

theorem download_truthful_iff (source : QByteArray) (r : DownloadResults)
    (h : received r.reads <+: source) (hlast : r.last = 0 → received r.reads = source)
    (hend : r.last ≤ 0) :
    Truthful (download r) source True ↔
      r.Refused ∨ r.Broken ∨ source.length ≤ r.onDisk := by
  by_cases hr : r.Refused
  · have hfail : download r = .failed := by
      unfold download
      rcases hr with h | h | h <;> simp [h]
    rw [hfail]
    exact ⟨fun _ => .inl hr, fun _ => truthful_failed _ _⟩
  have hopen := hr
  simp only [DownloadResults.Refused, not_or, Bool.not_eq_false] at hopen
  obtain ⟨h1, h2, h3⟩ := hopen
  by_cases hb : r.Broken
  · have hfail : download r = .failed := by
      simp [download, h1, h2, h3, readLoop_broken r.last r.reads 0 [] hb]
    rw [hfail]
    exact ⟨fun _ => .inr (.inl hb), fun _ => truthful_failed _ _⟩
  · obtain ⟨hwritten, hclean⟩ := not_or.mp hb
    push Not at hwritten
    have hall := hlast (by omega)
    have hkept : ∀ c ∈ r.reads, c.kept = c.bytes := fun c hc => kept_of_written (hwritten c hc)
    have hrun : download r =
        ⟨(received r.reads).length, some ((accepted r.reads).take r.onDisk)⟩ := by
      simp [download, h1, h2, h3, readLoop_whole 0 [] hwritten hclean]
    rw [hrun, truthful_iff (Int.natCast_nonneg _), Option.some.injEq, onDisk_iff h]
    constructor
    · rintro ⟨-, ⟨-, -, hdisk⟩, -⟩
      exact .inr (.inr hdisk)
    · intro hok
      have hdisk := (hok.resolve_left hr).resolve_left hb
      exact ⟨by rw [hall], ⟨hall, hkept, hdisk⟩, trivial⟩

-- A write is never reported to have taken more bytes than it was given.
def Fits (size : Nat) : Int → List Int → Prop
  | _, [] => True
  | off, n :: writes => n ≤ size - off ∧ Fits size (int32 (off + n)) writes

theorem sendLoop_small {go : Int → Bool} {size : Nat} (hsize : size < 2 ^ 31)
    (hgo : ∀ n, go n = true → 0 ≤ n) (writes : List Int) {off : Int} (total : Int)
    (hoff : 0 ≤ off ∧ off ≤ size) (h : Fits size off writes) :
    sendLoop go size writes off total =
      (off + (writes.takeWhile go).sum, total + (writes.takeWhile go).sum) ∧
    0 ≤ (writes.takeWhile go).sum ∧ off + (writes.takeWhile go).sum ≤ size := by
  induction writes generalizing off total with
  | nil => simp [sendLoop, hoff.2]
  | cons n writes ih =>
    cases hn : go n with
    | false => simp [sendLoop, hn, hoff.2]
    | true =>
      have hpos := hgo n hn
      have hfit := h.1
      have hint : int32 (off + n) = off + n := int32_eq (by omega) (by omega)
      have hnext : 0 ≤ off + n ∧ off + n ≤ size := by omega
      obtain ⟨hrun, hsum, hle⟩ := ih (total + n) hnext (hint ▸ h.2)
      rw [List.takeWhile_cons_of_pos hn, List.sum_cons]
      refine ⟨?_, by omega, by omega⟩
      rw [sendLoop]
      split
      · rw [hint, hrun, Int.add_assoc, Int.add_assoc]
      · rename_i hstop
        have hall : ¬ off < size := fun hlt => hstop ⟨hlt, hn⟩
        have hzero : n + (writes.takeWhile go).sum = 0 := by omega
        rw [hzero, Int.add_zero, Int.add_zero]

theorem sendLoop_lt (go : Int → Bool) (size : Nat) (writes : List Int) {off : Int} (total : Int)
    (h : off < 2 ^ 31) : (sendLoop go size writes off total).1 < 2 ^ 31 := by
  induction writes generalizing off total with
  | nil => exact h
  | cons n writes ih =>
    rw [sendLoop]
    split
    · exact ih _ (int32_lt _)
    · exact h

-- The writes end before all bytes are taken, or `off` cannot count them.
def Short (go : Int → Bool) (size : Nat) (writes : List Int) : Prop :=
  2 ^ 31 ≤ size ∨ (writes.takeWhile go).sum < size

theorem sendLoop_short {go : Int → Bool} {size : Nat} {writes : List Int}
    (hgo : ∀ n, go n = true → 0 ≤ n) (hfit : Fits size 0 writes) (h : Short go size writes) :
    (sendLoop go size writes 0 0).1 < size := by
  rcases Nat.lt_or_ge size (2 ^ 31) with hsize | hsize
  · obtain ⟨hrun, -, -⟩ := sendLoop_small hsize hgo writes 0 (by omega) hfit
    rw [hrun]
    rcases h with h | h
    · omega
    · simpa using h
  · have hlt : (sendLoop go size writes 0 0).1 < 2 ^ 31 := sendLoop_lt go size writes 0 (by decide)
    omega

theorem sendLoop_all {go : Int → Bool} {size : Nat} {writes : List Int}
    (hgo : ∀ n, go n = true → 0 ≤ n) (hfit : Fits size 0 writes) (h : ¬Short go size writes) :
    sendLoop go size writes 0 0 = ((size : Int), (size : Int)) := by
  obtain ⟨hsize, hsum⟩ := not_or.mp h
  obtain ⟨hrun, -, hle⟩ := sendLoop_small (by omega) hgo writes 0 (by omega) hfit
  have hexact : (writes.takeWhile go).sum = size := by omega
  rw [hrun, hexact, Int.zero_add]

def UploadResults.Refused (r : UploadResults) : Prop :=
  r.session = false ∨ r.opened = false ∨ r.handle = false

theorem upload_truthful_iff (source : QByteArray) (r : UploadResults)
    (hfit : Fits r.data.length 0 r.writes) :
    Truthful (upload r) source True ↔
      r.Refused ∨ Short (fun n => decide (0 < n)) r.data.length r.writes ∨ r.data = source := by
  have hgo : ∀ n : Int, decide (0 < n) = true → 0 ≤ n := fun n hn => by
    have := of_decide_eq_true hn
    omega
  by_cases hr : r.Refused
  · have hfail : upload r = .failed := by
      unfold upload
      rcases hr with h | h | h <;> simp [h]
    rw [hfail]
    exact ⟨fun _ => .inl hr, fun _ => truthful_failed _ _⟩
  have hopen := hr
  simp only [UploadResults.Refused, not_or, Bool.not_eq_false] at hopen
  obtain ⟨h1, h2, h3⟩ := hopen
  by_cases hs : Short (fun n => decide (0 < n)) r.data.length r.writes
  · have hfail : upload r = .failed := by
      simp [upload, h1, h2, h3, writeLoop, sendLoop_short hgo hfit hs]
    rw [hfail]
    exact ⟨fun _ => .inr (.inl hs), fun _ => truthful_failed _ _⟩
  · have hrun : upload r = ⟨r.data.length, some r.data⟩ := by
      simp [upload, h1, h2, h3, writeLoop, sendLoop_all hgo hfit hs]
    rw [hrun, truthful_iff (Int.natCast_nonneg _), Option.some.injEq]
    constructor
    · rintro ⟨-, hall, -⟩
      exact .inr (.inr hall)
    · intro hok
      have hall := (hok.resolve_left hr).resolve_left hs
      exact ⟨by rw [hall], hall, trivial⟩

def ScpDownloadResults.Refused (r : ScpDownloadResults) : Prop :=
  r.session = false ∨ r.channel = false ∨ r.opened = false

theorem scpReadLoop_eq (reads : List Chunk) (remaining total : Int) (file : QByteArray)
    (hne : ∀ c ∈ reads, c.bytes ≠ []) (hle : (received reads).length ≤ remaining) :
    scpReadLoop reads remaining total file =
      (remaining - (received reads).length, total + (received reads).length,
        file ++ accepted reads) := by
  induction reads generalizing remaining total file with
  | nil => simp [scpReadLoop, received, accepted]
  | cons c reads ih =>
    have hc := hne c List.mem_cons_self
    have hpos := List.length_pos_of_ne_nil hc
    simp only [received, List.flatMap_cons, List.length_append] at hle
    rw [scpReadLoop, if_neg (not_or.mpr ⟨by omega, hc⟩),
      ih _ _ _ (fun d hd => hne d (List.mem_cons_of_mem _ hd)) (by simp only [received]; omega)]
    simp [received, accepted, Int.add_assoc, Int.sub_sub]

theorem scpDownload_truthful_iff (source : QByteArray) (r : ScpDownloadResults)
    (h : received r.reads <+: source) (hne : ∀ c ∈ r.reads, c.bytes ≠ [])
    (hsize : r.size = source.length) :
    Truthful (scpDownload r) source True ↔
      r.Refused ∨ received r.reads ≠ source ∨
        ((∀ c ∈ r.reads, c.kept = c.bytes) ∧ source.length ≤ r.onDisk) := by
  by_cases hr : r.Refused
  · have hfail : scpDownload r = .failed := by
      unfold scpDownload
      rcases hr with h | h | h <;> simp [h]
    rw [hfail]
    exact ⟨fun _ => .inl hr, fun _ => truthful_failed _ _⟩
  have hopen := hr
  simp only [ScpDownloadResults.Refused, not_or, Bool.not_eq_false] at hopen
  obtain ⟨h1, h2, h3⟩ := hopen
  have hpre := h.length_le
  have hloop := scpReadLoop_eq r.reads r.size 0 [] hne (by omega)
  rw [hsize] at hloop
  by_cases hall : received r.reads = source
  · have hrun : scpDownload r =
        ⟨(received r.reads).length, some ((accepted r.reads).take r.onDisk)⟩ := by
      simp [scpDownload, h1, h2, h3, hloop, hsize, hall]
    rw [hrun, truthful_iff (Int.natCast_nonneg _), Option.some.injEq, onDisk_iff h]
    constructor
    · rintro ⟨-, ⟨-, hkept, hdisk⟩, -⟩
      exact .inr (.inr ⟨hkept, hdisk⟩)
    · intro hok
      obtain ⟨hkept, hdisk⟩ := (hok.resolve_left hr).resolve_left (not_not.mpr hall)
      exact ⟨by rw [hall], ⟨hall, hkept, hdisk⟩, trivial⟩
  · have hlt : (received r.reads).length < source.length :=
      Nat.lt_of_le_of_ne hpre fun he => hall (h.eq_of_length he)
    have hfail : scpDownload r = .failed := by
      simp [scpDownload, h1, h2, h3, hloop, hsize, hlt]
    rw [hfail]
    exact ⟨fun _ => .inr (.inl hall), fun _ => truthful_failed _ _⟩

def ScpUploadResults.Refused (r : ScpUploadResults) : Prop :=
  r.session = false ∨ r.opened = false ∨ r.channel = false

theorem scpUpload_truthful_iff (source : QByteArray) (r : ScpUploadResults)
    (h : r.data <+: source) (hfit : Fits r.data.length 0 r.writes) :
    Truthful (scpUpload r) source True ↔
      r.Refused ∨ Short (fun n => decide (0 ≤ n)) r.data.length r.writes ∨
        (r.data = source ∧ source.length ≤ r.stored) := by
  have hgo : ∀ n : Int, decide (0 ≤ n) = true → 0 ≤ n := fun n hn => of_decide_eq_true hn
  by_cases hr : r.Refused
  · have hfail : scpUpload r = .failed := by
      unfold scpUpload
      rcases hr with h | h | h <;> simp [h]
    rw [hfail]
    exact ⟨fun _ => .inl hr, fun _ => truthful_failed _ _⟩
  have hopen := hr
  simp only [ScpUploadResults.Refused, not_or, Bool.not_eq_false] at hopen
  obtain ⟨h1, h2, h3⟩ := hopen
  by_cases hs : Short (fun n => decide (0 ≤ n)) r.data.length r.writes
  · have hfail : scpUpload r = .failed := by
      simp [scpUpload, h1, h2, h3, scpWriteLoop, sendLoop_short hgo hfit hs]
    rw [hfail]
    exact ⟨fun _ => .inr (.inl hs), fun _ => truthful_failed _ _⟩
  · have hrun : scpUpload r = ⟨r.data.length, some (r.data.take r.stored)⟩ := by
      simp [scpUpload, h1, h2, h3, scpWriteLoop, sendLoop_all hgo hfit hs]
    rw [hrun, truthful_iff (Int.natCast_nonneg _), Option.some.injEq, stored_iff h]
    constructor
    · rintro ⟨-, hall, -⟩
      exact .inr (.inr hall)
    · intro hok
      have hall := (hok.resolve_left hr).resolve_left hs
      exact ⟨by rw [hall.1], hall, trivial⟩

end SftpConnection

def wholeFtpDownload : FtpClient.DownloadResults :=
  ⟨true, true, 150, true, [some ⟨[1, 2], 2⟩], ⟨[], 0⟩, 226, 2⟩

def wholeFtpUpload : FtpClient.UploadResults := ⟨true, true, true, 150, [1, 2], 2, 226⟩

def wholeDownload : SftpConnection.DownloadResults := ⟨true, true, true, [⟨[1, 2], 2⟩], 0, 2⟩

def wholeUpload : SftpConnection.UploadResults := ⟨true, true, [1, 2], true, [1, 1]⟩

def wholeScpDownload : SftpConnection.ScpDownloadResults :=
  ⟨true, true, 2, true, [⟨[1, 2], 2⟩], 2⟩

def wholeScpUpload : SftpConnection.ScpUploadResults := ⟨true, true, [1, 2], true, [0, 2], 2⟩

end Sftp
