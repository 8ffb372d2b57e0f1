import Lsof.Cli.OptionLetters

/-! # Words read with stand-ins

Where some word of the command line is not UTF-8, every word is read as text in
which each byte that is no character is its stand-in. Whether the words can be
read so is asked of them all first, and the words come back from their texts.
-/

namespace Lsof.Cli

open Lsof.Basis List

/-- One word of the question: `none` at a stand-in's own character, else whether
a byte so far is no character. -/
def scanPieces (any : Bool) : List Utf8.Piece → Option Bool
  | [] => some any
  | .char c :: ps => if (byteLetter c).isSome then none else scanPieces any ps
  | .invalid bad :: ps => scanPieces (any || !bad.isEmpty) ps

def standInsUsable (args : List Bytes) : Bool :=
  (args.foldlM (fun any a => scanPieces any (Utf8.pieces a)) false).getD false

def withStandIns (word : Bytes) : Text :=
  (Utf8.pieces word).flatMap fun
    | .char c => [c]
    | .invalid bad => bad.map letterForByte

def Apart (ps : List Utf8.Piece) : Prop := ∀ c, .char c ∈ ps → byteLetter c = none

theorem apart_of_scanPieces {ps : List Utf8.Piece} {any found : Bool} (h : scanPieces any ps = some found) :
    Apart ps := by
  induction ps generalizing any with
  | nil =>
    intro c hc
    exact absurd hc not_mem_nil
  | cons p ps ih =>
    intro c hc
    cases p with
    | char d =>
      rw [scanPieces] at h
      split at h
      next => exact absurd h nofun
      next hd =>
        rcases mem_cons.mp hc with heq | hin
        · cases heq
          simpa using hd
        · exact ih h c hin
    | invalid bad =>
      have hin : .char c ∈ ps := by simpa using hc
      exact ih h c hin

theorem apart_of_foldlM {args : List Bytes} {any found : Bool}
    (h : args.foldlM (fun any a => scanPieces any (Utf8.pieces a)) any = some found) :
    ∀ word ∈ args, Apart (Utf8.pieces word) := by
  induction args generalizing any with
  | nil =>
    intro word hword
    exact absurd hword not_mem_nil
  | cons a args ih =>
    intro word hword
    rw [foldlM_cons] at h
    rcases Option.bind_eq_some_iff.mp h with ⟨next, ha, hrest⟩
    rcases mem_cons.mp hword with heq | hin
    · rw [heq]
      exact apart_of_scanPieces ha
    · exact ih hrest word hin

theorem apart_of_usable {args : List Bytes} (h : standInsUsable args = true) :
    ∀ word ∈ args, Apart (Utf8.pieces word) := by
  unfold standInsUsable at h
  cases hfold : args.foldlM (fun any a => scanPieces any (Utf8.pieces a)) false with
  | none =>
    rw [hfold] at h
    exact absurd h nofun
  | some found => exact apart_of_foldlM hfold

theorem standInBytes_append (s t : Text) : standInBytes (s ++ t) = standInBytes s ++ standInBytes t :=
  flatMap_append

theorem standInBytes_letters (bad : Bytes) : standInBytes (bad.map letterForByte) = bad := by
  rw [standInBytes, flatMap_map]
  simp only [byteLetter_letterForByte]
  exact flatMap_singleton' bad

theorem standInBytes_pieces {ps : List Utf8.Piece} (h : Apart ps) :
    standInBytes (ps.flatMap fun
      | .char c => [c]
      | .invalid bad => bad.map letterForByte) = ps.flatMap Utf8.Piece.bytes := by
  induction ps with
  | nil => rfl
  | cons p ps ih =>
    have hrest : Apart ps := fun c hc => h c (mem_cons_of_mem _ hc)
    rw [flatMap_cons, flatMap_cons, standInBytes_append, ih hrest]
    congr 1
    cases p with
    | char c =>
      have hc : byteLetter c = none := h c mem_cons_self
      simp [standInBytes, hc, Utf8.Piece.bytes]
    | invalid bad => exact standInBytes_letters bad

theorem standInBytes_withStandIns {word : Bytes} (h : Apart (Utf8.pieces word)) :
    standInBytes (withStandIns word) = word :=
  (standInBytes_pieces h).trans (Utf8.flatMap_bytes_pieces word)

/-- Every word comes back from the text it is read as, and no two words are
read as one text. -/
theorem standIns_reversible (args : List Bytes) (husable : standInsUsable args = true) :
    (∀ word ∈ args, standInBytes (withStandIns word) = word) ∧
      ∀ word ∈ args, ∀ other ∈ args, word ≠ other → withStandIns word ≠ withStandIns other := by
  have hback : ∀ word ∈ args, standInBytes (withStandIns word) = word :=
    fun word hword => standInBytes_withStandIns (apart_of_usable husable word hword)
  constructor
  · exact hback
  · intro word hword other hother hne hsame
    apply hne
    rw [← hback word hword, ← hback other hother, hsame]

/-- `-p`, a word of one byte that is no character, and the first two bytes of a
character cut short. -/
theorem standIns_reversible_cut :
    standInsUsable [[0x2D, 0x70], [0xFF], [0xE2, 0x82]] = true ∧
      standInBytes (withStandIns [0xE2, 0x82]) = [0xE2, 0x82] ∧ withStandIns [0xFF] ≠ withStandIns [0xE2, 0x82] := by
  have husable : standInsUsable [[0x2D, 0x70], [0xFF], [0xE2, 0x82]] = true := by decide
  have hback := standIns_reversible _ husable
  exact ⟨husable, hback.1 _ (by simp), hback.2 _ (by simp) _ (by simp) (by simp)⟩

end Lsof.Cli
