import CellAsm.Proofs.Program.Covering
import CellAsm.Proofs.Program.Spelling

set_option autoImplicit false

/-! # The source map

A program is put together by adding one instruction after the other, and each of them is recorded
with its line under the number of words so far. A table keeps one line for each address, so a line
that is recorded twice under one address would be lost (`Program.record`). None ever is, because an
instruction is never without words: adding the instructions of a listing one by one gives the
program that is laid out as a whole (`Program.foldl_push`), the addresses of the table are the
beginnings of its instructions, and looking up the last one at an address or before it gives the
line of the instruction whose words contain the address (`Program.lineFor_exact`).
-/

namespace CellAsm

namespace Program

/-! ## Adding instructions -/

/-- Records a line in a table in ascending order, in the place of the one that stands there. -/
def record (address : Nat) (line : Line) : List (Nat × Line) → List (Nat × Line)
  | [] => [(address, line)]
  | origin :: origins =>
    if address < origin.1 then (address, line) :: origin :: origins
    else if address = origin.1 then (address, line) :: origins
    else origin :: record address line origins

/-- Adds an instruction behind the words of a program. -/
def push (program : Program) (entry : Line × Instruction) : Program where
  words := program.words ++ entry.2.words
  origins := record program.size entry.1 program.origins

end Program

section

variable {listing : Listing} {address start later : Nat} {entry other last : Line × Instruction}
  {line : Line} {origins : List (Nat × Line)}

/-! ## Beginnings in a listing -/

namespace Listing

/-- The last instruction begins behind the words of the others. -/
theorem beginsAt_concat_iff :
    BeginsAt (listing ++ [last]) address entry ↔
      listing.BeginsAt address entry ∨ address = listing.size ∧ entry = last := by
  constructor
  · rintro ⟨front, back, hsplit, rfl⟩
    rcases concat_eq_append_cons_iff.mp hsplit with ⟨rfl, rfl, -⟩ | ⟨rest, -, rfl⟩
    · exact .inr ⟨rfl, rfl⟩
    · exact .inl ⟨front, rest, rfl, rfl⟩
  · rintro (⟨front, back, rfl, rfl⟩ | ⟨rfl, rfl⟩)
    · exact ⟨front, back ++ [last], by simp, rfl⟩
    · exact ⟨listing, [], rfl, rfl⟩

/-- An instruction of a listing is its first one, or it stands behind the words of that. -/
theorem size_le_of_cons_eq_append {back between back' : Listing}
    (h : entry :: back = between ++ other :: back') :
    (between = [] ∧ other = entry) ∨ entry.2.size ≤ between.size := by
  rcases List.cons_eq_append_iff.mp h with ⟨rfl, hback⟩ | ⟨rest, rfl, -⟩
  · exact .inl ⟨rfl, (List.cons.inj hback).1⟩
  · rw [size_cons]
    exact .inr (Nat.le_add_right _ _)

/-- The words of one instruction are before or behind those of another one. -/
theorem BeginsAt.eq_or_apart (h : listing.BeginsAt start entry)
    (hother : listing.BeginsAt later other) :
    (later = start ∧ other = entry) ∨
      start + entry.2.size ≤ later ∨ later + other.2.size ≤ start := by
  obtain ⟨front, back, rfl, rfl⟩ := h
  obtain ⟨front', back', hsplit, rfl⟩ := hother
  rcases List.append_eq_append_iff.mp hsplit with ⟨between, rfl, hback⟩ | ⟨between, rfl, hback⟩
  · rw [size_append]
    rcases size_le_of_cons_eq_append hback with ⟨rfl, rfl⟩ | hle
    · exact .inl ⟨rfl, rfl⟩
    · exact .inr (.inl (by omega))
  · rw [size_append]
    rcases size_le_of_cons_eq_append hback with ⟨rfl, rfl⟩ | hle
    · exact .inl ⟨rfl, rfl⟩
    · exact .inr (.inr (by omega))

end Listing

namespace Program

/-! ## The table of a program -/

/-- Behind all recorded addresses a line is added and takes the place of none. -/
theorem record_of_forall_lt (h : ∀ origin ∈ origins, origin.1 < address) :
    record address line origins = origins ++ [(address, line)] := by
  induction origins with
  | nil => rfl
  | cons origin origins ih =>
      obtain ⟨horigin, horigins⟩ := List.forall_mem_cons.mp h
      rw [record, if_neg (Nat.not_lt_of_lt horigin), if_neg (Nat.ne_of_gt horigin), ih horigins,
        List.cons_append]

theorem origins_concat (listing : Listing) (entry : Line × Instruction) :
    (ofListing (listing ++ [entry])).origins =
      (ofListing listing).origins ++ [(listing.size, entry.1)] := by
  have hsplit := layOut_append 0 listing [entry]
  rwa [Nat.zero_add] at hsplit

theorem lt_size_of_mem_origins {origin : Nat × Line} (h : origin ∈ (ofListing listing).origins) :
    origin.1 < listing.size := by
  have hlt := lt_of_mem_layOut h
  rwa [Nat.zero_add] at hlt

/-- **Adding an instruction is laying it out behind the others.** -/
theorem push_ofListing (listing : Listing) (entry : Line × Instruction) :
    (ofListing listing).push entry = ofListing (listing ++ [entry]) := by
  have hbehind : ∀ origin ∈ (ofListing listing).origins, origin.1 < (ofListing listing).size := by
    intro origin horigin
    rw [size_ofListing]
    exact lt_size_of_mem_origins horigin
  have hwords : (ofListing listing).words ++ entry.2.words =
      (ofListing (listing ++ [entry])).words := by
    refine Array.toList_inj.mp ?_
    have hown : Listing.words [entry] = entry.2.words := List.flatMap_singleton _ _
    rw [Array.toList_appendList, toList_words_ofListing, toList_words_ofListing,
      Listing.words_append, hown]
  rw [push, record_of_forall_lt hbehind, hwords, size_ofListing, ← origins_concat]

theorem foldl_push (listing : Listing) : listing.foldl push {} = ofListing listing := by
  induction listing using List.reverseRecOn with
  | nil => rfl
  | append_singleton listing entry ih => rw [List.foldl_concat, ih, push_ofListing]

/-- The addresses are recorded in ascending order, so none is recorded twice. -/
theorem pairwise_origins (listing : Listing) :
    (ofListing listing).origins.Pairwise fun origin next => origin.1 < next.1 := by
  induction listing using List.reverseRecOn with
  | nil => exact List.Pairwise.nil
  | append_singleton listing entry ih =>
      rw [origins_concat]
      refine List.pairwise_append.mpr ⟨ih, List.pairwise_singleton _ _, fun origin horigin => ?_⟩
      exact List.forall_mem_singleton.mpr (lt_size_of_mem_origins horigin)

/-- The recorded addresses are those at which instructions begin, each with its line. -/
theorem mem_origins_iff :
    (address, line) ∈ (ofListing listing).origins ↔
      ∃ entry, listing.BeginsAt address entry ∧ entry.1 = line := by
  induction listing using List.reverseRecOn with
  | nil => simp [ofListing, layOut, Listing.BeginsAt]
  | append_singleton listing last ih =>
      rw [origins_concat, List.mem_append, ih, List.mem_singleton, Prod.mk.injEq]
      constructor
      · rintro (⟨entry, hbegins, hline⟩ | ⟨haddress, hline⟩)
        · exact ⟨entry, Listing.beginsAt_concat_iff.mpr (.inl hbegins), hline⟩
        · exact ⟨last, Listing.beginsAt_concat_iff.mpr (.inr ⟨haddress, rfl⟩), hline.symm⟩
      · rintro ⟨entry, hbegins, hline⟩
        rcases Listing.beginsAt_concat_iff.mp hbegins with hbegins | ⟨haddress, rfl⟩
        · exact .inl ⟨entry, hbegins, hline⟩
        · exact .inr ⟨haddress, hline.symm⟩

/-! ## The line of an address -/

/-- **The source map is exact.** An address inside a program is one of the words of exactly one
instruction, and its line is the one that this instruction was assembled from; behind the end it is
the line of the last instruction, if there is one. The addresses that were recorded while the
program was put together are those at which an instruction begins, each of them once. -/
theorem lineFor_exact {lines : List Line} {program : Program} (h : ofLines lines = .ok program) :
    ∃ listing, Listing.IsSpelled lines listing ∧ program = listing.foldl push {} ∧
      (∀ address < program.size, ∃ start entry,
        (∀ later other, (listing.BeginsAt later other ∧ later ≤ address ∧
          address < later + other.2.size) ↔ later = start ∧ other = entry) ∧
        program.HasAt start entry.2.words ∧ program.lineFor address = some entry.1) ∧
      (∀ address, program.size ≤ address →
        program.lineFor address = listing.getLast?.map Prod.fst) ∧
      program.origins.Pairwise (fun origin next => origin.1 < next.1) ∧
      ∀ address line, (address, line) ∈ program.origins ↔
        ∃ entry, listing.BeginsAt address entry ∧ entry.1 = line := by
  obtain ⟨listing, hlisting, rfl⟩ := Success.map_iff.mp h
  refine ⟨listing, Listing.ofLines_eq_ok_iff.mp hlisting, (foldl_push listing).symm, ?_, ?_,
    pairwise_origins listing, fun _ _ => mem_origins_iff⟩
  · intro address hinside
    rw [size_ofListing] at hinside
    obtain ⟨entry, hcovers⟩ := Listing.exists_covers hinside
    have hline := lineFor_of_covers hcovers
    obtain ⟨start, hbegins, hle, hlt⟩ := hcovers
    refine ⟨start, entry, fun later other => ⟨?_, ?_⟩, hbegins.hasAt, hline⟩
    · rintro ⟨hother, hle', hlt'⟩
      exact (hbegins.eq_or_apart hother).resolve_right (by omega)
    · rintro ⟨rfl, rfl⟩
      exact ⟨hbegins, hle, hlt⟩
  · intro address hbehind
    rw [size_ofListing] at hbehind
    exact lineFor_of_size_le hbehind

end Program

end

/-! ### Two instructions on one line -/

namespace SourceMap.Sample

def lines : List Line := Line.ofText "sample" "MOV [0] 7 ADD [0] 1\n\nHALT"

def line (number : Nat) (source : String) : Line := ⟨number, "sample", source, source⟩

def program : Program where
  words := #[8, 0, 7, 11, 0, 1, 255]
  origins :=
    [(0, line 1 "MOV [0] 7 ADD [0] 1"), (3, line 1 "MOV [0] 7 ADD [0] 1"), (6, line 3 "HALT")]

end SourceMap.Sample

open SourceMap.Sample in
theorem Program.lineFor_exact_sample :
    Program.ofLines lines = .ok program ∧ program.lineFor 5 = some (line 1 "MOV [0] 7 ADD [0] 1") ∧
      ∃ listing, Listing.IsSpelled lines listing ∧ program = listing.foldl push {} ∧
        (∃ entry, listing.BeginsAt 3 entry ∧ entry.1 = line 1 "MOV [0] 7 ADD [0] 1") ∧
        (¬ ∃ entry, listing.BeginsAt 5 entry) ∧
        listing.getLast?.map Prod.fst = some (line 3 "HALT") := by
  have hprogram : Program.ofLines lines = .ok program := by decide +kernel
  have hline : program.lineFor 5 = some (line 1 "MOV [0] 7 ADD [0] 1") := by decide +kernel
  obtain ⟨listing, hspelled, hpush, -, hbehind, -, horigins⟩ := Program.lineFor_exact hprogram
  refine ⟨hprogram, hline, listing, hspelled, hpush, ?_, ?_, ?_⟩
  · exact (horigins 3 _).mp (by decide)
  · rintro ⟨entry, hbegins⟩
    have hmem := (horigins 5 entry.1).mpr ⟨entry, hbegins, rfl⟩
    simp [program] at hmem
  · exact (hbehind 99 (by decide)).symm

end CellAsm
