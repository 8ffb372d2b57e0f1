import Lsof.Core.Endpoints

/-! # Which runs look host names up

The Windows backend looks no host up for a run in which it holds that no socket
row can be printed with its NAME. Sockets are listed in such a run all the same
where something else that was given brings them in.
-/

namespace Lsof.Core.Selection

open Lsof.Basis

variable (sel : Selection)

def socketNamesPrintable : Bool :=
  if sel.hasPathFilter || sel.terse then false
  else if sel.nfsOnly && (sel.andMode || decide (sel.specified = .single .nfs)) then false
  else true

/-- Whether a path argument names a socket: by the path it is bound to, and by its
NAME where the backend identifies no file. -/
def namesSocket (f : OpenFile) : Bool :=
  !f.isExempt &&
    if sel.pathsIdentified then
      f.boundPath.any fun b =>
        b.id.any (fun id => sel.pathIds.contains id) || b.path.any (fun p => sel.pathNames.contains p.bytes)
    else
      let name := f.name.toAsciiLowercase
      (sel.paths.filterMap matchedName).any (fun p => name == p.toAsciiLowercase || name.startsWith p.toAsciiLowercase) ||
        sel.dirTrees.any (fun d => underDir name d.toAsciiLowercase) ||
        sel.dirsOneLevel.any (fun d => directlyInDir name d.toAsciiLowercase)

/-- A socket is on no file system that an argument names, and under `-N` it counts
by a device alone, where no NFS mount is known. -/
def socketTest (f : OpenFile) : SelKind → Bool
  | .nm => sel.hasPathFilter && sel.namesSocket f
  | .nfs => sel.nfsOnly && sel.nfsMounts.isEmpty &&
      (f.fsDevice.filter (fun _ => !f.isExempt)).any (fun dev => sel.nfsDevices.contains dev)
  | k => sel.fileTest f k

theorem fileTest_of_isSocket {f : OpenFile} (h : f.isSocket = true) (k : SelKind) :
    sel.fileTest f k = sel.socketTest f k := by
  cases k with
  | nm =>
    have hdevice : f.searchedFsDevice = none := by simp [OpenFile.searchedFsDevice, h]
    have hid : f.fileId = none := by simp [OpenFile.fileId, hdevice]
    simp only [fileTest, socketTest, pathMatches, namesSocket, hdevice, hid]
    cases f.isExempt <;> cases sel.pathsIdentified <;> simp
  | nfs =>
    have hreglr : isReglr f = false := by simp [isReglr, h]
    simp only [fileTest, socketTest, isNfsFile, hreglr, Bool.and_assoc]
    cases f.fsDevice.filter (fun _ => !f.isExempt) with
    | none => simp
    | some dev => cases sel.nfsMounts.isEmpty <;> simp
  | _ => rfl

/-- Nothing brings a socket of an entry in: under the OR neither is of any kind, and
under `-a` a kind that was given is missing. -/
def PassesBy (withTasks : List Nat) (p : Process) (f : OpenFile) : Prop :=
  if sel.andMode = true then
    ∃ k, sel.given k = true ∧ k ∉ sel.entryKinds p withTasks ∧ sel.socketTest f k = false
  else ∀ k, k ∉ sel.entryKinds p withTasks ∧ sel.socketTest f k = false

theorem specified_of_not_printable (hterse : sel.terse = false) (h : sel.socketNamesPrintable = false) :
    sel.specified.isEmpty = false := by
  rw [KindSet.isEmpty_eq_false_iff]
  cases hpath : sel.hasPathFilter with
  | true => exact ⟨.nm, sel.mem_specified.mpr hpath⟩
  | false =>
    cases hnfs : sel.nfsOnly with
    | true => exact ⟨.nfs, sel.mem_specified.mpr hnfs⟩
    | false => simp [socketNamesPrintable, hterse, hpath, hnfs] at h

theorem keepsRow_socket {withTasks : List Nat} {p : Process} {f : OpenFile} (hgiven : sel.specified.isEmpty = false)
    (hpeer : p.endpointPeer = false) (hexcluded : sel.excludesProcess p = false) (hsocket : f.isSocket = true) :
    sel.keepsRow withTasks p f = false ↔ sel.PassesBy withTasks p f := by
  obtain ⟨given, hmem⟩ := KindSet.isEmpty_eq_false_iff.mp hgiven
  rw [← Bool.not_eq_true, sel.keepsRow_iff hgiven (sel.peerOnly_of_not_peer hpeer withTasks),
    sel.inheritedKinds_of_not_excluded hexcluded]
  simp only [sel.fileTest_of_isSocket hsocket, PassesBy]
  cases hand : sel.andMode with
  | false => simp
  | true =>
    simp only [if_true, forall_const]
    constructor
    · intro hmisses
      by_contra hnone
      push Not at hnone
      have hall : ∀ k, sel.given k = true → k ∈ sel.entryKinds p withTasks ∨ sel.socketTest f k = true := by
        intro k hk
        by_cases hentry : k ∈ sel.entryKinds p withTasks
        · exact .inl hentry
        · exact .inr (by simpa using hnone k hk hentry)
      exact hmisses ⟨⟨given, hall given (sel.mem_specified.mp hmem)⟩, hall⟩
    · rintro ⟨k, hk, hentry, htest⟩ ⟨-, hall⟩
      rcases hall k hk with hin | hin
      · exact hentry hin
      · rw [htest] at hin
        cases hin

theorem nameRow_of_isSocket {f : OpenFile} (h : f.isSocket = true) : sel.nameRow f = f := by
  unfold nameRow
  split
  · rw [renameLocated, if_pos h]
  · rfl

theorem isSocket_nameRow (f : OpenFile) : (sel.nameRow f).isSocket = f.isSocket := by
  rw [eq_named_of_unnamed (sel.nameRow_unnamed f)]
  rfl

/-- Process 4 with a socket, and another with none. -/
def serving : List Process :=
  [{ pid := 4, command := "System".toList,
     files := [{ fd := .unknown, fileType := .ipv4, name := "192.0.2.1:445".toList, socket := some { protocol := .tcp } }] },
   { pid := 8, command := "cmd".toList }]

end Lsof.Core.Selection
