import RecordStore.Proofs.BuildSteps

/-!
# Ways to open areas

A build opens an area for each role of a container node, in memory or on disk. To see that no two
areas which are open at once have one name, a third way is taken: on disk a file is there from when
its area is opened to when it is closed, so an area may be refused if its file is there.

## Main definitions

* `Build.openNewArea` — opens an area on disk whose file is not there.
* `Opener.Opens`, `Opener.Ready` — whether an area, or each area of some nodes, can be opened.

## Main statements

* `build_eq` — a build opens its areas in memory or on disk.
* `Opener.opens_openArea`, `Opener.opens_openNewArea` — where areas can be opened.
-/

namespace RecordStore

/-- A build opens its areas in memory or on disk. -/
theorem build_eq {staging : Staging} (hs : ∀ parent cause, staging ≠ .disk parent (some cause))
    (schema : Schema) (outer : Option Bytes) (input : Except SystemError Bytes) :
    build staging schema outer input =
      Opener.build (Build.openArea (staging != .memory)) schema outer input := by
  rcases staging with _ | ⟨parent, _ | cause⟩
  · rfl
  · rfl
  · exact absurd rfl (hs parent cause)

/-- Opens an area on disk, but fails if there is a file of its name. -/
def Build.openNewArea (ordinal : Nat) (role : String) : Build Area := do
  if ((← get).directory.files.lookup (Area.nameOf ordinal role)).isSome then
    throw (.staged (.system .alreadyExists))
  openArea true ordinal role

namespace Opener

open Directory (Agree Untouched)

variable {opener : Opener} {ordinal : Nat} {role : String} {d d' : Directory}

/-- Whether an empty area of the role can be opened in a directory, and no file but its own is
touched. -/
def Opens (opener : Opener) (ordinal : Nat) (role : String) (d : Directory) : Prop :=
  ∃ area d', (∀ output skipped,
      opener ordinal role ⟨output, skipped, d⟩ = .ok area ⟨output, skipped, d'⟩) ∧
    area.name = Area.nameOf ordinal role ∧ area.Stages d' [] ∧
      Agree (Area.nameOf ordinal role) d d'

/-- Whether it depends on the file of an area alone if the area can be opened. -/
def Local (opener : Opener) : Prop :=
  ∀ ordinal role d d', d'.files.lookup (Area.nameOf ordinal role) =
    d.files.lookup (Area.nameOf ordinal role) →
      opener.Opens ordinal role d → opener.Opens ordinal role d'

def Ready (opener : Opener) (n m : Nat) (d : Directory) : Prop :=
  ∀ ordinal role, n ≤ ordinal → ordinal < m → opener.Opens ordinal role d

theorem opens_openArea (onDisk : Bool) (ordinal : Nat) (role : String) (d : Directory) :
    Opens (Build.openArea onDisk) ordinal role d :=
  ⟨(Area.create onDisk (Area.nameOf ordinal role) d).1,
    (Area.create onDisk (Area.nameOf ordinal role) d).2, fun _ _ => rfl, Area.name_create ..,
    Area.stages_create .., fun _ => Area.agree_create onDisk _ d _⟩

theorem local_openArea (onDisk : Bool) : Local (Build.openArea onDisk) :=
  fun ordinal role _ d' _ _ => opens_openArea onDisk ordinal role d'

theorem ready_openArea (onDisk : Bool) (n m : Nat) (d : Directory) :
    Ready (Build.openArea onDisk) n m d :=
  fun ordinal role _ _ => opens_openArea onDisk ordinal role d

theorem openNewArea_apply (ordinal : Nat) (role : String) (p : Progress) :
    Build.openNewArea ordinal role p =
      if (p.directory.files.lookup (Area.nameOf ordinal role)).isSome then
        .error (.staged (.system .alreadyExists)) p
      else Build.openArea true ordinal role p := by
  unfold Build.openNewArea
  have hget : (get : Build Progress) p = .ok p p := rfl
  rw [Build.bind_apply, hget]
  dsimp only
  split <;> rfl

theorem opens_openNewArea :
    Opens Build.openNewArea ordinal role d ↔
      d.files.lookup (Area.nameOf ordinal role) = none := by
  constructor
  · rintro ⟨area, d', happly, -⟩
    have := happly #[] 0
    rw [openNewArea_apply] at this
    by_contra hne
    rw [if_pos (Option.isSome_iff_ne_none.2 hne)] at this
    cases this
  · intro hnone
    obtain ⟨area, d', happly, hopens⟩ := opens_openArea true ordinal role d
    refine ⟨area, d', fun output skipped => ?_, hopens⟩
    rw [openNewArea_apply, if_neg (by simp [hnone]), happly]

theorem local_openNewArea : Local Build.openNewArea := by
  intro ordinal role d d' he h
  rw [opens_openNewArea] at h ⊢
  exact he.trans h

theorem ready_openNewArea (n m : Nat) : Ready Build.openNewArea n m .empty :=
  fun _ _ _ _ => opens_openNewArea.2 rfl

theorem Opens.of_agree (hl : opener.Local) {other : String} (h : opener.Opens ordinal role d)
    (hd : Agree other d d') (hne : Area.nameOf ordinal role ≠ other) :
    opener.Opens ordinal role d' :=
  hl ordinal role d d' (hd _ hne) h

theorem Ready.of_untouched (hl : opener.Local) {n m k l : Nat} (h : opener.Ready n m d)
    (hd : Untouched k l d d') (hdisjoint : l ≤ n ∨ m ≤ k) : opener.Ready n m d' :=
  fun ordinal role hn hm =>
    hl ordinal role d d' (hd.lookup_nameOf (by omega) role) (h ordinal role hn hm)

theorem Ready.mono {n m k l : Nat} (h : opener.Ready n m d) (hn : n ≤ k) (hm : l ≤ m) :
    opener.Ready k l d :=
  fun ordinal role hk hl => h ordinal role (hn.trans hk) (hl.trans_le hm)

end Opener

end RecordStore
