import Mathlib.Data.List.TakeWhile
import MiniOb.Clog.DiskLogHandler

/-! What a directory of log files holds while a handler writes to it. -/
namespace MiniOb.Clog
open Prog List LogFileManager

/-! Names of files. -/

theorem lsnOfName (low : 0 ≤ n) (high : n < 2 ^ 63) : getLsnFromFilename (fileName n) = some n := by
  have whole : (fileName n).length = filePrefix.length + (Nat.toDigits 10 n.toNat).length + fileSuffix.length := by
    simp only [fileName,length_append]
    omega
  have middle : ((fileName n).drop filePrefix.length).take ((fileName n).length - fileSuffix.length - filePrefix.length) =
      Nat.toDigits 10 n.toNat := by
    rw [whole,fileName,drop_left]
    have length : filePrefix.length + (Nat.toDigits 10 n.toNat).length + fileSuffix.length - fileSuffix.length -
        filePrefix.length = (Nat.toDigits 10 n.toNat).length := by omega
    rw [length,take_left]
  have digits : ∀ c ∈ Nat.toDigits 10 n.toNat, c.isDigit = true := fun c inside =>
    Nat.isDigit_of_mem_toDigits (by decide) (by decide) inside
  have taken : (Nat.toDigits 10 n.toNat).takeWhile Char.isDigit = Nat.toDigits 10 n.toNat :=
    takeWhile_eq_self_iff.mpr digits
  have number : fromChars (Nat.toDigits 10 n.toNat) = some n := by
    unfold fromChars
    split
    · rename_i text same
      cases digits '-' (by rw [same]; simp)
    · simp only [taken,Nat.ofDigitChars_ten_toDigits]
      rw [if_neg Nat.toDigits_ne_nil,if_pos (by omega),Int.toNat_of_nonneg low]
  have ends : fileSuffix <:+ fileName n := by
    rw [fileName,← append_assoc]
    exact suffix_append _ _
  unfold getLsnFromFilename
  rw [if_pos ⟨prefix_append _ _,ends⟩,middle,number]

theorem nameInj (lowA : 0 ≤ a) (highA : a < 2 ^ 63) (lowB : 0 ≤ b) (highB : b < 2 ^ 63)
    (same : fileName a = fileName b) : a = b := by
  have numbers := lsnOfName lowA highA
  rw [same,lsnOfName lowB highB] at numbers
  exact (Option.some.inj numbers).symm

/-! The map of the files. -/
namespace LogFileManager
variable {lsn : Int} {name : FileName} {files : List (Int × FileName)}

theorem emplacePerm (fresh : ∀ file ∈ files, file.1 ≠ lsn) : (emplace lsn name files).Perm ((lsn,name) :: files) := by
  induction files with
  | nil => exact .refl _
  | cons file rest ih =>
    obtain ⟨other,others⟩ := forall_mem_cons.mp fresh
    unfold emplace
    split
    · exact .refl _
    · rw [if_neg (Ne.symm other)]
      exact ((ih others).cons file).trans (.swap _ _ _)

theorem emplaceSorted (fresh : ∀ file ∈ files, file.1 ≠ lsn) (sorted : files.Pairwise fun a b => a.1 < b.1) :
    (emplace lsn name files).Pairwise fun a b => a.1 < b.1 := by
  induction files with
  | nil => simp [emplace]
  | cons file rest ih =>
    obtain ⟨first,others⟩ := pairwise_cons.mp sorted
    obtain ⟨other,freshRest⟩ := forall_mem_cons.mp fresh
    unfold emplace
    split
    · rename_i less
      refine pairwise_cons.mpr ⟨fun x inside => ?_,sorted⟩
      rcases mem_cons.mp inside with rfl | later
      · exact less
      · exact less.trans (first x later)
    · rw [if_neg (Ne.symm other)]
      refine pairwise_cons.mpr ⟨fun x inside => ?_,ih freshRest others⟩
      rcases mem_cons.mp ((emplacePerm freshRest).mem_iff.mp inside) with rfl | old
      · show file.1 < lsn
        omega
      · exact first x old

theorem emplaceLast (greater : ∀ file ∈ files, file.1 < lsn) : emplace lsn name files = files ++ [(lsn,name)] := by
  induction files with
  | nil => rfl
  | cons file rest ih =>
    obtain ⟨less,others⟩ := forall_mem_cons.mp greater
    rw [emplace,if_neg (by omega),if_neg (by omega),ih others,cons_append]

end LogFileManager

structure Segment where
  lsn : Int
  base : Bytes
  entries : List LogEntry

namespace Segment

def file (seg : Segment) : FileName × Bytes := (fileName seg.lsn,seg.base ++ bytesOf seg.entries)

def key (seg : Segment) : Int × FileName := (seg.lsn,fileName seg.lsn)

def origin (seg : Segment) : Int × Bytes := (seg.lsn,seg.base)

end Segment

structure Files (max : Int) (segs : List Segment) : Prop where
  apart : segs.Pairwise fun a b => a.lsn + max ≤ b.lsn
  low : ∀ seg ∈ segs, 0 ≤ seg.lsn
  high : ∀ seg ∈ segs, seg.lsn + max ≤ 2 ^ 31
  within : ∀ seg ∈ segs, ∀ entry ∈ seg.entries, seg.lsn ≤ entry.lsn ∧ entry.lsn < seg.lsn + max

section
variable {max : Int} {segs : List Segment}

theorem Files.small (files : Files max segs) (positive : 0 < max) (inside : seg ∈ segs) : seg.lsn < 2 ^ 63 := by
  have high := files.high seg inside
  omega

theorem Files.less (files : Files max segs) (positive : 0 < max) : segs.Pairwise fun a b => a.lsn < b.lsn :=
  files.apart.imp fun apart => by omega

theorem Files.names (files : Files max segs) (positive : 0 < max) : (segs.map fun seg => fileName seg.lsn).Nodup := by
  refine pairwise_map.mpr (List.Pairwise.imp_of_mem ?_ (files.less positive))
  intro a b insideA insideB less same
  have equal := nameInj (files.low a insideA) (files.small positive insideA) (files.low b insideB) (files.small positive insideB)
    same
  omega

theorem permOfMap (perm : m.Perm (l.map f)) :
    ∃ k : List α, k.Perm l ∧ m = k.map f := by
  generalize image : l.map f = n at perm
  induction perm generalizing l with
  | nil =>
    obtain rfl := map_eq_nil_iff.mp image
    exact ⟨[],.refl _,rfl⟩
  | cons x rest ih =>
    obtain ⟨a,tail,rfl,rfl,rfl⟩ := map_eq_cons_iff.mp image
    obtain ⟨k,same,rfl⟩ := ih rfl
    exact ⟨a :: k,same.cons a,rfl⟩
  | swap x y rest =>
    obtain ⟨a,others,rfl,rfl,second⟩ := map_eq_cons_iff.mp image
    obtain ⟨b,tail,rfl,rfl,rfl⟩ := map_eq_cons_iff.mp second
    exact ⟨b :: a :: tail,.swap _ _ _,rfl⟩
  | trans first second ihFirst ihSecond =>
    obtain ⟨k,same,rfl⟩ := ihSecond image
    obtain ⟨k',same',rfl⟩ := ihFirst rfl
    exact ⟨k',same'.trans same,rfl⟩

theorem initFold (named : ∀ seg ∈ segs, getLsnFromFilename (fileName seg.lsn) = some seg.lsn)
    (distinct : segs.Pairwise fun a b => a.lsn ≠ b.lsn)
    (fresh : ∀ seg ∈ segs, ∀ file ∈ found, file.1 ≠ seg.lsn) (sorted : found.Pairwise fun a b => a.1 < b.1) :
    let all := (segs.map Segment.file).foldl (fun files file => match getLsnFromFilename file.1 with
      | none => files
      | some lsn => emplace lsn file.1 files) found
    all.Perm (segs.map Segment.key ++ found) ∧ all.Pairwise fun a b => a.1 < b.1 := by
  induction segs generalizing found with
  | nil => exact ⟨.refl _,sorted⟩
  | cons seg rest ih =>
    obtain ⟨name,names⟩ := forall_mem_cons.mp named
    obtain ⟨other,others⟩ := pairwise_cons.mp distinct
    obtain ⟨new,news⟩ := forall_mem_cons.mp fresh
    simp only [map_cons,foldl_cons,Segment.file,name]
    have place : (emplace seg.lsn (fileName seg.lsn) found).Perm _ := emplacePerm new
    have freshRest : ∀ s ∈ rest, ∀ file ∈ emplace seg.lsn (fileName seg.lsn) found, file.1 ≠ s.lsn := by
      intro s inside file member
      rcases mem_cons.mp (place.mem_iff.mp member) with rfl | old
      · exact other s inside
      · exact news s inside file old
    obtain ⟨perm,ordered⟩ := ih names others freshRest (emplaceSorted new sorted)
    exact ⟨perm.trans ((place.append_left _).trans perm_middle),ordered⟩

theorem Files.initFiles (files : Files max segs) (positive : 0 < max)
    (listed : listing.Perm (segs.map Segment.file)) : (init max listing).logFiles = segs.map Segment.key := by
  obtain ⟨order,same,rfl⟩ := permOfMap listed
  have named : ∀ seg ∈ order, getLsnFromFilename (fileName seg.lsn) = some seg.lsn := fun seg inside =>
    lsnOfName (files.low seg (same.mem_iff.mp inside)) (files.small positive (same.mem_iff.mp inside))
  have distinct : order.Pairwise fun a b => a.lsn ≠ b.lsn :=
    same.symm.pairwise ((files.less positive).imp fun less => by omega) (fun h => Ne.symm h)
  obtain ⟨perm,sorted⟩ := initFold named distinct (by simp : ∀ seg ∈ order, ∀ file ∈ ([] : List (Int × FileName)), file.1 ≠ seg.lsn) .nil
  rw [append_nil] at perm
  refine List.Perm.eq_of_pairwise ?_ sorted (pairwise_map.mpr (files.less positive)) (perm.trans (same.map _))
  intro a b _ _ less greater
  omega

end

end MiniOb.Clog
