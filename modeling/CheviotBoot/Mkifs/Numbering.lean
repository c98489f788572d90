import Mathlib.Data.List.Nodup
import CheviotBoot.Mkifs.Source

namespace CheviotBoot.Mkifs
open Lib

/-- An entry that gets a record: its place, mode and contents. -/
structure Entry where
  place : Place
  mode : Word
  contents : List Byte

/-- The entries of a listing below a place, each directory before what it holds. -/
def Listing.entries : Listing → Place → List Entry
  | .nil, _ => []
  | .self rest, place | .parent rest, place | .other _ _ rest, place => rest.entries place
  | .file name m contents rest, place =>
    ⟨name.bytes :: place, m.val, contents⟩ :: rest.entries place
  | .dir name m children rest, place =>
    ⟨name.bytes :: place, m.val, []⟩ ::
      (children.entries (name.bytes :: place) ++ rest.entries place)

/-- The places of the directories below a place, in the same order. -/
def Listing.dirs : Listing → Place → List Place
  | .nil, _ => []
  | .self rest, place | .parent rest, place | .other _ _ rest, place | .file _ _ _ rest, place =>
    rest.dirs place
  | .dir name _ children rest, place =>
    (name.bytes :: place) :: (children.dirs (name.bytes :: place) ++ rest.dirs place)

/-- How many inode numbers the walk of a listing uses up. -/
def Listing.inodes : Listing → Nat
  | .nil => 0
  | .self rest | .parent rest => rest.inodes
  | .file _ _ _ rest | .other _ _ rest => rest.inodes + 1
  | .dir _ _ children rest => children.inodes + rest.inodes + 3

def SourceTree.entries (t : SourceTree) : List Entry := t.listing.entries []

def SourceTree.dirs (t : SourceTree) : List Place := [] :: t.listing.dirs []

def SourceTree.inodes (t : SourceTree) : Nat := t.listing.inodes + 2

/-- What a record denotes: an entry its own place, "." its directory, ".." the one above. -/
def Rec.target (r : Rec) : Place :=
  match r.role with
  | .entry | .self => r.place
  | .up => r.place.tail

/-- The directory a record lies in. -/
def Rec.home (r : Rec) : Place :=
  match r.role with
  | .entry => r.place.tail
  | .self | .up => r.place

def Rec.isEntry (r : Rec) : Bool := r.role == .entry

/-- Which place carries which inode number, as the entry records say. -/
def bindings (rs : List Rec) : List (Place × Word) :=
  (rs.filter Rec.isEntry).map (fun r => (r.place, r.inodeNr))

@[simp] theorem bindings_nil : bindings [] = [] := rfl

@[simp] theorem bindings_append (as bs : List Rec) :
    bindings (as ++ bs) = bindings as ++ bindings bs := by
  simp [bindings]

theorem bindings_cons (r : Rec) (rs : List Rec) :
    bindings (r :: rs) = bindings [r] ++ bindings rs :=
  bindings_append [r] rs

@[simp] theorem bindings_dotRecs (place : Place) (path : List Byte)
    (ino parentIno mode parentMode : Word) :
    bindings (dotRecs place path ino parentIno mode parentMode) = [] := by
  simp only [bindings, dotRecs]
  split <;> rfl

/-- The record's numbers are those of places already known; an entry brings its own. -/
def Rec.LinkedTo (known : List (Place × Word)) (r : Rec) : Prop :=
  (r.role = .entry ∨ (r.target, r.inodeNr) ∈ known) ∧ (r.home, r.parentInodeNr) ∈ known

/-- Every record is linked to what is known when its turn comes. -/
def Linked (known : List (Place × Word)) : List Rec → Prop
  | [] => True
  | r :: rs => r.LinkedTo known ∧ Linked (known ++ bindings [r]) rs

theorem linked_append {known : List (Place × Word)} {as bs : List Rec} :
    Linked known (as ++ bs) ↔ Linked known as ∧ Linked (known ++ bindings as) bs := by
  induction as generalizing known with
  | nil => simp [Linked]
  | cons r as ih =>
    rw [List.cons_append, Linked, Linked, ih, bindings_cons r as, List.append_assoc, and_assoc]

theorem dotRecs_linked {known : List (Place × Word)} {name : List Byte} {place : Place}
    {ino parentIno : Word}
    (path : List Byte) (mode parentMode : Word) (hself : (name :: place, ino) ∈ known)
    (hup : (place, parentIno) ∈ known) :
    Linked known (dotRecs (name :: place) path ino parentIno mode parentMode) := by
  simp only [dotRecs]
  split
  · exact ⟨⟨Or.inr hself, hself⟩, ⟨Or.inr (List.mem_append_left _ hup),
      List.mem_append_left _ hself⟩, trivial⟩
  · exact ⟨⟨Or.inr hself, hself⟩, trivial⟩

/-- The walk links every record below a directory whose number is known,
whatever the counter does. -/
theorem Listing.recs_linked (l : Listing) {known : List (Place × Word)} {place : Place} {ino : Word}
    (path : List Byte) (mode n : Word) (h : (place, ino) ∈ known) :
    Linked known (l.recs place path ino mode n).1 := by
  induction l generalizing known place path ino mode n with
  | nil => trivial
  | self rest ih | parent rest ih => exact ih path mode n h
  | other name m rest ih => exact ih path mode (n + 1#32) h
  | file name m contents rest ih =>
    exact ⟨⟨Or.inl rfl, h⟩, ih path mode (n + 1#32) (List.mem_append_left _ h)⟩
  | dir name m children rest ihc ihr =>
    refine ⟨⟨Or.inl rfl, h⟩, ?_⟩
    rw [linked_append, linked_append]
    have hown : ∀ ks, (place, ino) ∈ (known ++ ks) := fun _ => List.mem_append_left _ h
    refine ⟨⟨?_, ?_⟩, ?_⟩
    · exact dotRecs_linked _ _ _ (List.mem_append_right _ (List.mem_singleton.mpr rfl)) (hown _)
    · refine ihc _ _ _ (List.mem_append_left _ (List.mem_append_right _ (List.mem_singleton.mpr rfl)))
    · rw [List.append_assoc]
      exact ihr _ _ _ (hown _)

theorem dotRecs_length {n : Word} (hn : n ≠ 0#32) (place : Place) (path : List Byte)
    (parentIno mode parentMode : Word) :
    (dotRecs place path n parentIno mode parentMode).length = 2 := by
  simp [dotRecs, hn]

theorem toNat_add_small {n : Word} {k : Nat} (h : n.toNat + k < 2 ^ 32) :
    (n + BitVec.ofNat 32 k).toNat = n.toNat + k := by
  rw [BitVec.toNat_add, BitVec.toNat_ofNat, Nat.add_mod_mod]
  exact Nat.mod_eq_of_lt h

theorem toNat_succ {n : Word} (h : n.toNat + 1 < 2 ^ 32) : (n + 1#32).toNat = n.toNat + 1 :=
  toNat_add_small h

theorem ne_zero_of_le {n k : Word} (hn : n ≠ 0#32) (h : n.toNat ≤ k.toNat) : k ≠ 0#32 := by
  rintro rfl
  apply hn
  apply BitVec.eq_of_toNat_eq
  simpa using h

/-- The counter inside a directory, while the numbers last for what is in it. -/
theorem inside_counter {n : Word} {k : Nat} (hn : n ≠ 0#32) (h : n.toNat + (k + 3) < 2 ^ 32) :
    n + 1#32 + 2#32 ≠ 0#32 ∧ (n + 1#32 + 2#32).toNat = n.toNat + 3 := by
  have hin : (n + 1#32 + 2#32).toNat = n.toNat + 3 := by
    rw [BitVec.add_assoc]
    exact toNat_add_small (k := 3) (by omega)
  exact ⟨ne_zero_of_le hn (by omega), hin⟩

/-- While the numbers last, the counter moves by what the listing uses up. -/
theorem Listing.recs_counter (l : Listing) (place : Place) (path : List Byte)
    (ino mode : Word) {n : Word} (hn : n ≠ 0#32) (hlt : n.toNat + l.inodes < 2 ^ 32) :
    ((l.recs place path ino mode n).2).toNat = n.toNat + l.inodes := by
  induction l generalizing place path ino mode n with
  | nil => rfl
  | self rest ih | parent rest ih => exact ih place path ino mode hn hlt
  | file name m contents rest ih | other name m rest ih =>
    simp only [Listing.inodes] at hlt ⊢
    have hnext : (n + 1#32).toNat = n.toNat + 1 := toNat_succ (by omega)
    have hrest := ih place path ino mode (n := n + 1#32) (ne_zero_of_le hn (by omega)) (by omega)
    simp only [Listing.recs, hrest, hnext]
    omega
  | dir name m children rest ihc ihr =>
    simp only [Listing.inodes] at hlt ⊢
    obtain ⟨hne, hin⟩ := inside_counter hn hlt
    have hbelow := ihc (name.bytes :: place) (joinPath path name.bytes) n m.val hne (by omega)
    have hrest := ihr place path ino mode
      (n := (children.recs (name.bytes :: place) (joinPath path name.bytes) n m.val (n + 1#32 + 2#32)).2)
      (ne_zero_of_le hn (by omega)) (by omega)
    simp only [Listing.recs, dotRecs_length hn]
    rw [hrest, hbelow, hin]
    omega

/-- The counter inside a directory and behind what is in it, while the numbers last. -/
theorem Listing.recs_inside (l : Listing) (place : Place) (path : List Byte) (ino mode : Word)
    {n : Word} {k : Nat} (hn : n ≠ 0#32) (hlt : n.toNat + (l.inodes + k + 3) < 2 ^ 32) :
    (n + 1#32 + 2#32 ≠ 0#32 ∧ (n + 1#32 + 2#32).toNat = n.toNat + 3) ∧
      (l.recs place path ino mode (n + 1#32 + 2#32)).2 ≠ 0#32 ∧
      ((l.recs place path ino mode (n + 1#32 + 2#32)).2).toNat = n.toNat + 3 + l.inodes := by
  obtain ⟨hne, hin⟩ := inside_counter hn hlt
  have hcount := l.recs_counter place path ino mode hne (by omega)
  exact ⟨⟨hne, hin⟩, ne_zero_of_le hne (by omega), hcount.trans (by rw [hin])⟩

/-- The numbers of a list of bindings grow strictly within bounds. -/
structure Ascending (lo hi : Nat) (bs : List (Place × Word)) : Prop where
  grow : bs.Pairwise (fun b c => b.2.toNat < c.2.toNat)
  within : ∀ b ∈ bs, lo ≤ b.2.toNat ∧ b.2.toNat < hi

theorem ascending_nil (lo hi : Nat) : Ascending lo hi [] := ⟨List.Pairwise.nil, by simp⟩

theorem Ascending.append {lo mid hi : Nat} {as bs : List (Place × Word)} (ha : Ascending lo mid as)
    (hb : Ascending mid hi bs) (hlo : lo ≤ mid) (hhi : mid ≤ hi) : Ascending lo hi (as ++ bs) := by
  refine ⟨List.pairwise_append.mpr ⟨ha.grow, hb.grow, ?_⟩, ?_⟩
  · intro a hma b hmb
    have := (ha.within a hma).2
    have := (hb.within b hmb).1
    omega
  · intro c hc
    cases List.mem_append.mp hc with
    | inl hc =>
      have := ha.within c hc
      omega
    | inr hc =>
      have := hb.within c hc
      omega

theorem Ascending.mono {lo hi lo' hi' : Nat} {bs : List (Place × Word)} (h : Ascending lo hi bs)
    (hlo : lo' ≤ lo) (hhi : hi ≤ hi') : Ascending lo' hi' bs := by
  refine ⟨h.grow, fun b hb => ?_⟩
  obtain ⟨hl, hr⟩ := h.within b hb
  exact ⟨Nat.le_trans hlo hl, Nat.lt_of_lt_of_le hr hhi⟩

theorem ascending_singleton (p : Place) {n : Word} {hi : Nat} (h : n.toNat < hi) :
    Ascending n.toNat hi [(p, n)] := by
  refine ⟨List.pairwise_singleton _ _, ?_⟩
  intro b hb
  obtain rfl := List.mem_singleton.mp hb
  exact ⟨Nat.le_refl _, h⟩

/-- While the numbers last, the entries of a listing are numbered in growing order
from the counter on. -/
theorem Listing.recs_ascending (l : Listing) (place : Place) (path : List Byte)
    (ino mode : Word) {n : Word} (hn : n ≠ 0#32) (hlt : n.toNat + l.inodes < 2 ^ 32) :
    Ascending n.toNat (n.toNat + l.inodes) (bindings (l.recs place path ino mode n).1) := by
  induction l generalizing place path ino mode n with
  | nil => exact ascending_nil _ _
  | self rest ih | parent rest ih => exact ih place path ino mode hn hlt
  | other name m rest ih =>
    simp only [Listing.inodes] at hlt ⊢
    have hnext : (n + 1#32).toNat = n.toNat + 1 := toNat_succ (by omega)
    have hrest := ih place path ino mode (n := n + 1#32) (ne_zero_of_le hn (by omega)) (by omega)
    rw [hnext] at hrest
    exact hrest.mono (by omega) (by omega)
  | file name m contents rest ih =>
    simp only [Listing.inodes] at hlt ⊢
    have hnext : (n + 1#32).toNat = n.toNat + 1 := toNat_succ (by omega)
    have hrest := ih place path ino mode (n := n + 1#32) (ne_zero_of_le hn (by omega)) (by omega)
    rw [hnext] at hrest
    have hall := (ascending_singleton (name.bytes :: place) (Nat.lt_succ_self n.toNat)).append hrest
      (by omega) (by omega)
    exact hall.mono (Nat.le_refl _) (by omega)
  | dir name m children rest ihc ihr =>
    simp only [Listing.inodes] at hlt ⊢
    obtain ⟨⟨hne, hin⟩, hbehind, hcount⟩ := children.recs_inside (name.bytes :: place)
      (joinPath path name.bytes) n m.val hn hlt
    have hbelow := ihc (name.bytes :: place) (joinPath path name.bytes) n m.val hne (by omega)
    have hrest := ihr place path ino mode hbehind (by omega)
    rw [hcount] at hrest
    rw [hin] at hbelow
    have hall := (ascending_singleton (name.bytes :: place) (by omega : n.toNat < n.toNat + 3)).append
      (hbelow.append hrest (by omega) (by omega)) (by omega) (by omega)
    simp only [Listing.recs, dotRecs_length hn]
    rw [bindings_cons, bindings_append, bindings_append, bindings_dotRecs, List.nil_append]
    exact hall.mono (Nat.le_refl _) (by omega)

/-- The entries some records are about. -/
def entriesOf (rs : List Rec) : List Entry :=
  (rs.filter Rec.isEntry).map (fun r => ⟨r.place, r.permissions, r.contents⟩)

/-- The directories whose records of a role these are. -/
def dirsOf (role : Role) (rs : List Rec) : List Place :=
  (rs.filter (fun r => r.role == role)).map Rec.place

@[simp] theorem entriesOf_append (as bs : List Rec) :
    entriesOf (as ++ bs) = entriesOf as ++ entriesOf bs := by
  simp [entriesOf]

@[simp] theorem dirsOf_append (role : Role) (as bs : List Rec) :
    dirsOf role (as ++ bs) = dirsOf role as ++ dirsOf role bs := by
  simp [dirsOf]

@[simp] theorem entriesOf_dotRecs (place : Place) (path : List Byte)
    (ino parentIno mode parentMode : Word) :
    entriesOf (dotRecs place path ino parentIno mode parentMode) = [] := by
  simp only [entriesOf, dotRecs]
  split <;> rfl

@[simp] theorem dirsOf_self_dotRecs (place : Place) (path : List Byte)
    (ino parentIno mode parentMode : Word) :
    dirsOf .self (dotRecs place path ino parentIno mode parentMode) = [place] := by
  simp only [dirsOf, dotRecs]
  split <;> rfl

theorem dirsOf_up_dotRecs {ino : Word} (h : ino ≠ 0#32) (place : Place) (path : List Byte)
    (parentIno mode parentMode : Word) :
    dirsOf .up (dotRecs place path ino parentIno mode parentMode) = [place] := by
  simp [dirsOf, dotRecs, h]

/-- Where every entry has a record, a tree uses up one number for each record. -/
theorem Listing.recs_length (l : Listing) (place : Place) (path : List Byte)
    (ino mode : Word) {n : Word}
    (hplain : l.Plain) (hn : n ≠ 0#32) (hlt : n.toNat + (l.recs place path ino mode n).1.length < 2 ^ 32) :
    (l.recs place path ino mode n).1.length = l.inodes := by
  induction l generalizing place path ino mode n with
  | nil => rfl
  | self rest ih | parent rest ih => exact ih place path ino mode hplain hn hlt
  | other name m rest ih => exact hplain.elim
  | file name m contents rest ih =>
    simp only [Listing.recs, List.length_cons] at hlt ⊢
    have hnext : (n + 1#32).toNat = n.toNat + 1 := toNat_succ (by omega)
    have hrest := ih place path ino mode hplain (n := n + 1#32) (ne_zero_of_le hn (by omega)) (by omega)
    rw [hrest]
    rfl
  | dir name m children rest ihc ihr =>
    simp only [Listing.recs, List.length_cons, List.length_append, dotRecs_length hn] at hlt ⊢
    obtain ⟨hne, hin⟩ := inside_counter (k := 0) hn (by omega)
    have hbelow := ihc (name.bytes :: place) (joinPath path name.bytes) n m.val hplain.1 hne (by omega)
    obtain ⟨-, hbehind, hcount⟩ := children.recs_inside (k := 0) (name.bytes :: place)
      (joinPath path name.bytes) n m.val hn (by omega)
    have hrest := ihr place path ino mode hplain.2 hbehind (by omega)
    rw [hbelow, hrest]
    simp only [Listing.inodes]
    omega

/-- The entry records are the entries of the tree, in order. -/
theorem Listing.recs_entries (l : Listing) (place : Place) (path : List Byte) (ino mode n : Word) :
    entriesOf (l.recs place path ino mode n).1 = l.entries place := by
  induction l generalizing place path ino mode n with
  | nil => rfl
  | self rest ih | parent rest ih => exact ih place path ino mode n
  | other name m rest ih => exact ih place path ino mode (n + 1#32)
  | file name m contents rest ih => exact congrArg (_ :: ·) (ih place path ino mode (n + 1#32))
  | dir name m children rest ihc ihr =>
    refine congrArg (_ :: ·) ?_
    have happ := entriesOf_append (dotRecs (name.bytes :: place) (joinPath path name.bytes) n ino m.val mode)
    simp only [entriesOf_dotRecs, List.nil_append] at happ
    change entriesOf _ = _
    rw [List.append_assoc, happ, entriesOf_append, ihc, ihr]

/-- Every directory of the tree has one "." record, in order. -/
theorem Listing.recs_selves (l : Listing) (place : Place) (path : List Byte) (ino mode n : Word) :
    dirsOf .self (l.recs place path ino mode n).1 = l.dirs place := by
  induction l generalizing place path ino mode n with
  | nil => rfl
  | self rest ih | parent rest ih => exact ih place path ino mode n
  | other name m rest ih | file name m contents rest ih => exact ih place path ino mode (n + 1#32)
  | dir name m children rest ihc ihr =>
    change dirsOf .self (_ ++ _ ++ _) = _
    rw [dirsOf_append, dirsOf_append, dirsOf_self_dotRecs, ihc, ihr]
    rfl

/-- While the numbers last, every directory below the root has one ".." record, in order. -/
theorem Listing.recs_ups (l : Listing) (place : Place) (path : List Byte)
    (ino mode : Word) {n : Word} (hn : n ≠ 0#32) (hlt : n.toNat + l.inodes < 2 ^ 32) :
    dirsOf .up (l.recs place path ino mode n).1 = l.dirs place := by
  induction l generalizing place path ino mode n with
  | nil => rfl
  | self rest ih | parent rest ih => exact ih place path ino mode hn hlt
  | other name m rest ih | file name m contents rest ih =>
    simp only [Listing.inodes] at hlt
    have hnext : (n + 1#32).toNat = n.toNat + 1 := toNat_succ (by omega)
    exact ih place path ino mode (n := n + 1#32) (ne_zero_of_le hn (by omega)) (by omega)
  | dir name m children rest ihc ihr =>
    simp only [Listing.inodes] at hlt
    obtain ⟨⟨hne, hin⟩, hbehind, hcount⟩ := children.recs_inside (name.bytes :: place)
      (joinPath path name.bytes) n m.val hn hlt
    have hbelow := ihc (name.bytes :: place) (joinPath path name.bytes) n m.val hne (by omega)
    have hrest := ihr place path ino mode hbehind (by omega)
    have hdots := dirsOf_up_dotRecs hn (name.bytes :: place) (joinPath path name.bytes) ino m.val mode
    simp only [Listing.recs, dotRecs_length hn]
    change dirsOf .up (_ ++ _ ++ _) = _
    rw [dirsOf_append, dirsOf_append, hdots, hbelow, hrest]
    rfl

/-- Where the entries below a place are: at a name of the listing, or further down. -/
theorem Listing.entries_under (l : Listing) (place : Place) :
    ∀ e ∈ l.entries place, ∃ inner name, name ∈ l.entryNames ∧
      e.place = inner ++ name :: place := by
  induction l generalizing place with
  | nil => simp [Listing.entries]
  | self rest ih | parent rest ih => exact ih place
  | other name m rest ih =>
    intro e he
    obtain ⟨inner, x, hx, hp⟩ := ih place e he
    exact ⟨inner, x, List.mem_cons_of_mem _ hx, hp⟩
  | file name m contents rest ih =>
    intro e he
    rcases List.mem_cons.mp he with rfl | he
    · exact ⟨[], name.bytes, List.mem_cons_self, rfl⟩
    · obtain ⟨inner, x, hx, hp⟩ := ih place e he
      exact ⟨inner, x, List.mem_cons_of_mem _ hx, hp⟩
  | dir name m children rest ihc ihr =>
    intro e he
    rcases List.mem_cons.mp he with rfl | he
    · exact ⟨[], name.bytes, List.mem_cons_self, rfl⟩
    · cases List.mem_append.mp he with
      | inl he =>
        obtain ⟨inner, x, _, hp⟩ := ihc (name.bytes :: place) e he
        exact ⟨inner ++ [x], name.bytes, List.mem_cons_self, by simp [hp]⟩
      | inr he =>
        obtain ⟨inner, x, hx, hp⟩ := ihr place e he
        exact ⟨inner, x, List.mem_cons_of_mem _ hx, hp⟩

/-- What an entry is called is a proper file name. -/
theorem Listing.entries_name (l : Listing) (place : Place) :
    ∀ e ∈ l.entries place, ∃ name : FileName, e.place = name.bytes :: e.place.tail := by
  induction l generalizing place with
  | nil => simp [Listing.entries]
  | self rest ih | parent rest ih | other name m rest ih => exact ih place
  | file name m contents rest ih =>
    intro e he
    rcases List.mem_cons.mp he with rfl | he
    · exact ⟨name, rfl⟩
    · exact ih place e he
  | dir name m children rest ihc ihr =>
    intro e he
    rcases List.mem_cons.mp he with rfl | he
    · exact ⟨name, rfl⟩
    · cases List.mem_append.mp he with
      | inl he => exact ihc _ e he
      | inr he => exact ihr _ e he

/-- Places below different names of one directory differ. -/
theorem place_ne {n m : List Byte} (h : n ≠ m) (xs ys : Place) {p : Place} :
    xs ++ n :: p ≠ ys ++ m :: p := by
  intro he
  have hlen := congrArg List.length he
  simp only [List.length_append, List.length_cons] at hlen
  have htail := (List.append_inj he (by omega)).2
  exact h (List.cons.inj htail).1

theorem Listing.not_mem_entries {l : Listing} {name : List Byte} (h : name ∉ l.entryNames)
    (place inner : Place) :
    inner ++ name :: place ∉ (l.entries place).map Entry.place := by
  intro hm
  obtain ⟨e, he, hp⟩ := List.mem_map.mp hm
  obtain ⟨xs, m, hmem, hq⟩ := l.entries_under place e he
  have hne : name ≠ m := fun hnm => h (hnm.symm ▸ hmem)
  exact place_ne hne inner xs (hp.symm.trans hq)

/-- In a tree without equal names in a directory no two entries are at one place. -/
theorem Listing.entries_nodup (l : Listing) (place : Place) (h : l.Distinct) :
    ((l.entries place).map Entry.place).Nodup := by
  induction l generalizing place with
  | nil => exact List.nodup_nil
  | self rest ih | parent rest ih => exact ih place h
  | other name m rest ih => exact ih place h.2
  | file name m contents rest ih =>
    exact List.nodup_cons.mpr ⟨Listing.not_mem_entries h.1 place [], ih place h.2⟩
  | dir name m children rest ihc ihr =>
    obtain ⟨hname, hbelow, hrest⟩ := h
    simp only [Listing.entries, List.map_cons, List.map_append, List.nodup_cons, List.nodup_append,
      List.mem_append, not_or]
    refine ⟨⟨?_, Listing.not_mem_entries hname place []⟩, ihc _ hbelow, ihr place hrest, ?_⟩
    · intro hm
      obtain ⟨e, he, hp⟩ := List.mem_map.mp hm
      obtain ⟨xs, m, _, hq⟩ := children.entries_under (name.bytes :: place) e he
      have hlen := congrArg List.length (hp.symm.trans hq)
      simp at hlen
      omega
    · intro a ha b hb hab
      obtain ⟨e, he, rfl⟩ := List.mem_map.mp ha
      obtain ⟨xs, m, _, hq⟩ := children.entries_under (name.bytes :: place) e he
      apply Listing.not_mem_entries hname place (xs ++ [m])
      rw [List.append_assoc, List.singleton_append, ← hq, hab]
      exact hb

/-- A directory below a place lies in that place or in another such directory. -/
theorem Listing.dirs_tail (l : Listing) (place : Place) :
    ∀ d ∈ l.dirs place, d.tail = place ∨ d.tail ∈ l.dirs place := by
  induction l generalizing place with
  | nil => simp [Listing.dirs]
  | self rest ih | parent rest ih | other name m rest ih | file name m contents rest ih => exact ih place
  | dir name m children rest ihc ihr =>
    intro d hd
    simp only [Listing.dirs, List.mem_cons, List.mem_append] at hd ⊢
    rcases hd with rfl | hd | hd
    · exact Or.inl rfl
    · cases ihc (name.bytes :: place) d hd with
      | inl h => exact Or.inr (Or.inl h)
      | inr h => exact Or.inr (Or.inr (Or.inl h))
    · cases ihr place d hd with
      | inl h => exact Or.inl h
      | inr h => exact Or.inr (Or.inr (Or.inr h))

theorem Linked.getElem? {known : List (Place × Word)} {rs : List Rec} (h : Linked known rs)
    {i : Nat} {r : Rec} (hi : rs[i]? = some r) : r.LinkedTo (known ++ bindings (rs.take i)) := by
  induction rs generalizing known i with
  | nil => simp at hi
  | cons q rs ih =>
    cases i with
    | zero =>
      simp only [List.getElem?_cons_zero, Option.some.injEq] at hi
      subst hi
      simpa using h.1
    | succ i =>
      have hq := ih h.2 (by simpa using hi)
      rwa [List.append_assoc, ← bindings_cons] at hq

theorem mem_bindings {rs : List Rec} {p : Place} {n : Word} (h : (p, n) ∈ bindings rs) :
    ∃ r ∈ rs, r.role = .entry ∧ r.place = p ∧ r.inodeNr = n := by
  obtain ⟨r, hr, he⟩ := List.mem_map.mp h
  obtain ⟨hmem, hrole⟩ := List.mem_filter.mp hr
  obtain ⟨rfl, rfl⟩ := Prod.mk.inj he
  exact ⟨r, hmem, by simpa [Rec.isEntry] using hrole, rfl, rfl⟩

theorem bindings_mem {rs : List Rec} {r : Rec} (h : r ∈ rs) (hr : r.role = .entry) :
    (r.place, r.inodeNr) ∈ bindings rs :=
  List.mem_map_of_mem (List.mem_filter.mpr ⟨h, by simp [Rec.isEntry, hr]⟩)

theorem bindings_fst (rs : List Rec) :
    (bindings rs).map Prod.fst = (entriesOf rs).map Entry.place := by
  simp [bindings, entriesOf]

/-- The number of a place, read off the entry records. -/
def inoOf (bs : List (Place × Word)) (p : Place) : Word := (bs.lookup p).getD 0#32

theorem inoOf_mem {bs : List (Place × Word)} (h : (bs.map Prod.fst).Nodup) {p : Place} {n : Word}
    (hm : (p, n) ∈ bs) : inoOf bs p = n := by
  induction bs with
  | nil => cases hm
  | cons b bs ih =>
    obtain ⟨hb, hbs⟩ := List.nodup_cons.mp h
    rcases List.mem_cons.mp hm with rfl | hm
    · simp [inoOf]
    · have hne : p ≠ b.1 := fun he => hb (he ▸ List.mem_map_of_mem (f := Prod.fst) hm)
      have hrest := ih hbs hm
      rw [inoOf] at hrest ⊢
      rw [List.lookup_cons, beq_false_of_ne hne]
      exact hrest

theorem inoOf_bound {bs : List (Place × Word)} (h : (bs.map Prod.fst).Nodup) {p : Place}
    (hp : p ∈ bs.map Prod.fst) : (p, inoOf bs p) ∈ bs := by
  obtain ⟨b, hb, rfl⟩ := List.mem_map.mp hp
  rw [inoOf_mem h hb]
  exact hb

theorem inoOf_injective {bs : List (Place × Word)} (hkeys : (bs.map Prod.fst).Nodup)
    (hvals : (bs.map Prod.snd).Nodup) {p q : Place} (hp : p ∈ bs.map Prod.fst) (hq : q ∈ bs.map Prod.fst)
    (he : inoOf bs p = inoOf bs q) : p = q :=
  congrArg Prod.fst (List.inj_on_of_nodup_map hvals (inoOf_bound hkeys hp) (inoOf_bound hkeys hq) he)

/-- Ascending numbers are distinct. -/
theorem Ascending.vals_nodup {lo hi : Nat} {bs : List (Place × Word)} (h : Ascending lo hi bs) :
    (bs.map Prod.snd).Nodup := by
  refine List.pairwise_map.mpr (h.grow.imp ?_)
  intro b c hlt he
  rw [he] at hlt
  exact Nat.lt_irrefl _ hlt

theorem mem_bindings_take {rs : List Rec} {k : Nat} {b : Place × Word}
    (h : b ∈ bindings (rs.take k)) :
    b ∈ bindings rs := by
  rw [← List.take_append_drop k rs, bindings_append]
  exact List.mem_append_left _ h

theorem SourceTree.recs_cons (t : SourceTree) (pathPrefix : List Byte) :
    t.recs pathPrefix = rootRec pathPrefix :: (t.recs pathPrefix).tail := rfl

theorem SourceTree.recs_linked (t : SourceTree) (pathPrefix : List Byte) :
    Linked [([], 0#32)] (t.recs pathPrefix).tail := by
  have hroot : (([], 0#32) : Place × Word) ∈ [(([], 0#32) : Place × Word)] := List.mem_singleton.mpr rfl
  refine ⟨⟨Or.inr hroot, hroot⟩, ?_⟩
  exact t.listing.recs_linked pathPrefix t.mode.val 2#32 (List.mem_append_left _ hroot)

theorem SourceTree.recs_bindings (t : SourceTree) (pathPrefix : List Byte) :
    bindings (t.recs pathPrefix) =
      ([], 0#32) :: bindings (t.listing.recs [] pathPrefix 0#32 t.mode.val 2#32).1 := by
  rw [SourceTree.recs, bindings_cons, bindings_append, bindings_dotRecs]
  rfl

/-- The places of the tree that carry a number of their own. -/
def SourceTree.places (t : SourceTree) : List Place := [] :: t.entries.map Entry.place

theorem SourceTree.recs_places (t : SourceTree) (pathPrefix : List Byte) :
    (bindings (t.recs pathPrefix)).map Prod.fst = t.places := by
  rw [t.recs_bindings, List.map_cons, bindings_fst, Listing.recs_entries]
  rfl

theorem SourceTree.places_nodup (t : SourceTree) (h : t.listing.Distinct) : t.places.Nodup := by
  refine List.nodup_cons.mpr ⟨?_, t.listing.entries_nodup [] h⟩
  intro hm
  obtain ⟨e, he, hp⟩ := List.mem_map.mp hm
  obtain ⟨xs, m, _, hq⟩ := t.listing.entries_under [] e he
  rw [hp] at hq
  exact List.append_ne_nil_of_right_ne_nil xs (List.cons_ne_nil m []) hq.symm

theorem SourceTree.recs_ascending (t : SourceTree) (pathPrefix : List Byte)
    (h : t.inodes < 2 ^ 32) :
    Ascending 0 t.inodes (bindings (t.recs pathPrefix)) := by
  have hlist := t.listing.recs_ascending [] pathPrefix 0#32 t.mode.val (n := 2#32) (by decide)
    (by rw [Nat.add_comm]; exact h)
  rw [t.recs_bindings]
  refine (ascending_singleton [] (by decide : (0#32).toNat < 2)).append (hlist.mono (Nat.le_refl _) ?_)
    (by decide) ?_
  · rw [Nat.add_comm]
    exact Nat.le_refl _
  · exact Nat.le_add_left 2 _

/-- An assignment of inode numbers to the places of a tree under which a list of
records says what its links say. -/
structure Numbering (t : SourceTree) (rs : List Rec) (ino : Place → Word) : Prop where
  root : ino [] = 0#32
  injective : ∀ p ∈ t.places, ∀ q ∈ t.places, ino p = ino q → p = q
  bounded : ∀ p ∈ t.places, (ino p).toNat < t.inodes
  links : ∀ r ∈ rs, r.inodeNr = ino r.target ∧ r.parentInodeNr = ino r.home
  placed : ∀ r ∈ rs, r.target ∈ t.places ∧ r.home ∈ t.places
  earlier : ∀ i r, rs[i + 1]? = some r →
    ∃ j q, j ≤ i ∧ rs[j]? = some q ∧ q.role = .entry ∧ q.place = r.home

/-- What a record links to was recorded before it. -/
theorem SourceTree.recs_linkedTo (t : SourceTree) (pathPrefix : List Byte) {i : Nat} {r : Rec}
    (hi : (t.recs pathPrefix)[i + 1]? = some r) : r.LinkedTo (bindings ((t.recs pathPrefix).take (i + 1))) := by
  have hroot : bindings [rootRec pathPrefix] = [([], 0#32)] := rfl
  rw [t.recs_cons, List.getElem?_cons_succ] at hi
  have hl := (t.recs_linked pathPrefix).getElem? hi
  rw [t.recs_cons, List.take_succ_cons, bindings_cons, hroot]
  exact hl

theorem SourceTree.recs_bound (t : SourceTree) (pathPrefix : List Byte) {r : Rec}
    (hr : r ∈ t.recs pathPrefix) :
    (r.target, r.inodeNr) ∈ bindings (t.recs pathPrefix) ∧
      (r.home, r.parentInodeNr) ∈ bindings (t.recs pathPrefix) := by
  obtain ⟨i, hi⟩ := List.mem_iff_getElem?.mp hr
  cases i with
  | zero =>
    rw [t.recs_cons, List.getElem?_cons_zero, Option.some.injEq] at hi
    subst hi
    have hm : (([], 0#32) : Place × Word) ∈ bindings (t.recs pathPrefix) := by
      rw [t.recs_bindings]
      exact List.mem_cons_self
    exact ⟨hm, hm⟩
  | succ i =>
    obtain ⟨ht, hh⟩ := t.recs_linkedTo pathPrefix hi
    refine ⟨?_, mem_bindings_take hh⟩
    cases ht with
    | inl he =>
      have htarget : r.target = r.place := by simp [Rec.target, he]
      rw [htarget]
      exact bindings_mem hr he
    | inr ht => exact mem_bindings_take ht

theorem SourceTree.recs_earlier (t : SourceTree) (pathPrefix : List Byte) {i : Nat} {r : Rec}
    (hi : (t.recs pathPrefix)[i + 1]? = some r) :
    ∃ j q, j ≤ i ∧ (t.recs pathPrefix)[j]? = some q ∧ q.role = .entry ∧ q.place = r.home := by
  obtain ⟨q, hq, hrole, hplace, _⟩ := mem_bindings (t.recs_linkedTo pathPrefix hi).2
  obtain ⟨j, hj⟩ := List.mem_iff_getElem?.mp hq
  have hlt := (List.getElem?_eq_some_iff.mp hj).1
  rw [List.length_take] at hlt
  have hji : j < i + 1 := Nat.lt_of_lt_of_le hlt (Nat.min_le_left _ _)
  rw [List.getElem?_take_of_lt hji] at hj
  exact ⟨j, q, Nat.le_of_lt_succ hji, hj, hrole, hplace⟩

/-- While the numbers last, the walk numbers the tree. -/
theorem SourceTree.numbering (t : SourceTree) (pathPrefix : List Byte) (hd : t.listing.Distinct)
    (hlt : t.inodes < 2 ^ 32) :
    Numbering t (t.recs pathPrefix) (inoOf (bindings (t.recs pathPrefix))) := by
  have hkeys : ((bindings (t.recs pathPrefix)).map Prod.fst).Nodup := by
    rw [t.recs_places]
    exact t.places_nodup hd
  have hasc := t.recs_ascending pathPrefix hlt
  have hplaces : ∀ p, p ∈ t.places ↔ p ∈ (bindings (t.recs pathPrefix)).map Prod.fst := by
    intro p
    rw [t.recs_places]
  refine ⟨?_, ?_, ?_, ?_, ?_, fun i r => t.recs_earlier pathPrefix⟩
  · rw [t.recs_bindings]
    rfl
  · intro p hp q hq he
    exact inoOf_injective hkeys hasc.vals_nodup ((hplaces p).mp hp) ((hplaces q).mp hq) he
  · intro p hp
    exact (hasc.within _ (inoOf_bound hkeys ((hplaces p).mp hp))).2
  · intro r hr
    obtain ⟨ht, hh⟩ := t.recs_bound pathPrefix hr
    exact ⟨(inoOf_mem hkeys ht).symm, (inoOf_mem hkeys hh).symm⟩
  · intro r hr
    obtain ⟨ht, hh⟩ := t.recs_bound pathPrefix hr
    exact ⟨(hplaces _).mpr (List.mem_map_of_mem ht), (hplaces _).mpr (List.mem_map_of_mem hh)⟩

end CheviotBoot.Mkifs
