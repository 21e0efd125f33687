import DeclSchema.Proofs.Source.Loading
import DeclSchema.Proofs.Storage.Revisiting

/-!
# What was stored is loaded

A source that is loaded from where a text was published is that text, but for its line ends: they
are stored as they are and become line feeds when they are loaded. So a text without carriage
returns comes back as it is, and so does every text that was loaded.

## Main definitions

* `Utf8.Mended`: a text with a line feed for each of its line ends

## Main results

* `Utf8.mended_iff`: how line ends are mended when bytes are decoded
* `Source.load_published`: a text that was published is loaded with its line ends mended
-/

namespace DeclSchema

/-! ### Line ends -/

namespace Utf8

/-- The second text is the first one with a line feed for every carriage return that has a line feed
behind it, together with that line feed, and for every other carriage return. -/
inductive Mended : List Char → List Char → Prop where
  | nil : Mended [] []
  | both {cs ds : List Char} (h : Mended cs ds) : Mended ('\r' :: '\n' :: cs) ('\n' :: ds)
  | alone {cs ds : List Char} (hcs : cs.head? ≠ some '\n') (h : Mended cs ds) :
      Mended ('\r' :: cs) ('\n' :: ds)
  | other {c : Char} {cs ds : List Char} (hc : c ≠ '\r') (h : Mended cs ds) :
      Mended (c :: cs) (c :: ds)

theorem mended_unixLines (cs : List Char) : Mended cs (unixLines cs) := by
  fun_induction unixLines cs with
  | case1 => exact .nil
  | case2 rest ih => exact .both ih
  | case3 c rest hpair ih =>
    split
    · next hc =>
      subst hc
      refine .alone (fun hhead => ?_) ih
      obtain ⟨tail, rfl⟩ := List.head?_eq_some_iff.1 hhead
      exact hpair tail rfl rfl
    · next hc => exact .other hc ih

/-- There is one way to mend line ends. -/
theorem mended_iff {cs ds : List Char} : Mended cs ds ↔ ds = unixLines cs := by
  refine ⟨fun h => ?_, fun h => h ▸ mended_unixLines cs⟩
  induction h with
  | nil => rfl
  | both _ ih => rw [unixLines, ih]
  | @alone cs _ hcs _ ih =>
    rw [unixLines, if_pos rfl, ih]
    rintro rest - rfl
    exact hcs rfl
  | other hc _ ih =>
    rw [unixLines, if_neg hc, ih]
    rintro rest rfl
    exact absurd rfl hc

end Utf8

namespace Text

theorem chars?_ofChars (cs : List Char) : chars? (ofChars cs) = some cs := by
  have hchar (c : Char) : (CodePoint.ofChar c).char? = some c := by
    rw [CodePoint.char?, CodePoint.isSurrogate_ofChar]
    exact congrArg some (Char.ofNat_toNat c)
  induction cs with
  | nil => rfl
  | cons c cs ih =>
    change List.mapM CodePoint.char? (CodePoint.ofChar c :: ofChars cs) = _
    rw [List.mapM_cons, hchar]
    change ((chars? (ofChars cs)) >>= fun ds => some (c :: ds)) = _
    rw [ih]
    rfl

theorem utf8?_ofChars (cs : List Char) : utf8? (ofChars cs) = some (Utf8.encode cs) := by
  rw [utf8?, chars?_ofChars, Option.map_some]

end Text

namespace Source

open Storage

variable {s : Storage} {p : Path} {place : List Text} {entries : Entries FileTree}

/-- A text is loaded from a path that leads to its bytes. -/
theorem load_of_admits {cs : List Char} (h : Admits s p place entries)
    (hget : Entries.get? p.name entries = some (.file (Utf8.encode cs))) (reply : Reply) :
    load s reply (.path p) = ⟨[], .ok (Utf8.unixLines cs)⟩ := by
  have hscheme : [] ∉ ["http".toList, "https".toList] := by decide
  have hstored : (Location.path p).IsStored := ⟨by rintro ⟨a, ⟨⟩, -⟩, hscheme⟩
  have hread : readStored s (.path p) = decode (Utf8.encode cs) := by
    simp only [readStored, Location.toPath, h.check_eq, h.read_eq hget]
    rfl
  rw [load_of_isStored hstored, hread, decode, Utf8.decode?_encode]

/-- **A text that was published is loaded with its line ends mended.** Without a carriage return it
is loaded as it is. What was loaded can be published at the same path, and is loaded as it is. -/
theorem load_published (s : Storage) (p : Path) (cs : List Char) (reply : Reply)
    (h : (s.publish none p (.ofChars cs)).fault? = none) :
    let text := Utf8.unixLines cs
    let stored := (s.publish none p (.ofChars cs)).storage
    let again := stored.publish none p (.ofChars text)
    Utf8.Mended cs text ∧ load stored reply (.path p) = ⟨[], .ok text⟩ ∧
      ('\r' ∉ cs → load stored reply (.path p) = ⟨[], .ok cs⟩) ∧
      again.fault? = none ∧ load again.storage reply (.path p) = ⟨[], .ok text⟩ := by
  intro text stored again
  obtain ⟨made, place, entries, hmade, content, hcontent, hstored⟩ := exists_admits h
  obtain rfl : content = Utf8.encode cs :=
    Option.some.inj (hcontent.symm.trans (Text.utf8?_ofChars cs))
  -- What admitted the first text admits every text from now on, since the target is a file.
  have hadmits : Admits stored p place (Entries.put p.name (.file (Utf8.encode cs)) entries) := by
    rw [show stored = _ from hstored]
    exact hmade.stage _
  have hload := load_of_admits hadmits (Entries.get?_put_self ..) reply
  have hagain : again = ⟨stored.stage (place ++ [p.name]) (Utf8.encode text), [], none⟩ :=
    hadmits.publishWith_eq (Text.utf8?_ofChars text)
  refine ⟨Utf8.mended_unixLines cs, hload, fun hcs => ?_, by rw [hagain], ?_⟩
  · rw [hload, Utf8.unixLines_of_not_mem hcs]
  · rw [hagain, load_of_admits (hadmits.stage _) (Entries.get?_put_self ..),
      Utf8.unixLines_unixLines]

/-- In a directory that is made for it, a text with each sort of line end comes back with line
feeds. -/
theorem load_published_lines :
    let path := Path.ofText (.ofString "d/a")
    let stored := (sampleStorage.publish none path (.ofString "x\r\n\ry\rz\n\r\r\n")).storage
    load stored (.silence []) (.path path) = ⟨[], .ok "x\n\ny\nz\n\n\n".toList⟩ := by
  have hfault : (sampleStorage.publish none (.ofText (.ofString "d/a"))
      (.ofString "x\r\n\ry\rz\n\r\r\n")).fault?.isNone = true := by cbv
  have hlines : Utf8.unixLines "x\r\n\ry\rz\n\r\r\n".toList = "x\n\ny\nz\n\n\n".toList := by decide
  rw [← hlines]
  exact (load_published _ _ _ _ (Option.isNone_iff_eq_none.1 hfault)).2.1

end Source

end DeclSchema
