import Pintos.Userprog.Tasks

namespace Pintos.Userprog

open Lib Threads Vm List Code

def Light (held : List LockName) : Prop := held = [] ∨ held = [.fs]

def OnFail.Fits (held : List LockName) : OnFail → Prop
  | .killUser => held = [.frameTable]
  | .killKernel => True
  | .failLoad => held = [.fs, .frameTable]

-- Code that, started with the locks `held`, never asks for a lock it has nor gives back one
-- it has not, leaves the kernel without a lock, and may exit only where none is held but
-- that of the frame table.
def Disciplined : List LockName → List Instr → Prop
  | held, [] => held = []
  | held, .acquire l :: code => l ∉ held ∧ Disciplined (held ++ [l]) code
  | held, .release l :: code => l ∈ held ∧ Disciplined (held.erase l) code
  | held, .check _ _ :: code => held = [] ∧ Disciplined held code
  | held, .validateEsp _ :: code => held = [] ∧ Disciplined held code
  | held, .validateOnStack _ :: code => held = [] ∧ Disciplined held code
  | held, .growStack _ _ _ :: code => held = [] ∧ Disciplined held code
  | held, .access _ _ :: code => Light held ∧ Disciplined held code
  | held, .obtain _ fail :: code =>
    Light held ∧ fail.Fits (held ++ [.frameTable]) ∧ Disciplined held code
  | held, .fetch _ fail :: code =>
    (held = [.frameTable] ∨ held = [.fs, .frameTable]) ∧ fail.Fits held ∧ Disciplined held code
  | held, .header _ _ :: code => held = [.fs] ∧ Disciplined held code
  | held, .setupStack :: code => held = [.fs] ∧ Disciplined held code
  | held, .alloc _ :: code => Disciplined held code
  | held, .setPagedir _ :: code => Disciplined held code
  | held, .openExec :: code => Disciplined held code
  | held, .link :: code => Disciplined held code
  | held, .unlink :: code => Disciplined held code
  | held, .spawn _ :: code => Disciplined held code
  | held, .resize _ _ :: code => Disciplined held code
  | _, .panic :: _ => True
  | _, .powerOff :: _ => True
  | held, .processExit :: _ => held = [] ∨ held = [.frameTable]
  | _, .releaseAll :: code => Disciplined [] code
  | held, .die :: _ => held = []

namespace Disciplined

variable {held : List LockName} {code : List Instr} {l : LockName}

theorem erase_concat_self (h : l ∉ held) : (held ++ [l]).erase l = held := by
  rw [erase_append_right _ h]
  simp

theorem touch_iff (hlight : Light held) (addr : Addr) (cnt : Nat) (write : Bool) :
    Disciplined held (Code.touch addr cnt write ++ code) ↔ Disciplined held code := by
  unfold Code.touch
  induction List.range cnt with
  | nil => simp
  | cons i is ih => simp [Disciplined, hlight, ih]

theorem sections_iff (h : l ∉ held) (cnt : Nat) :
    Disciplined held (Code.sections l cnt ++ code) ↔ Disciplined held code := by
  unfold Code.sections
  induction cnt with
  | zero => simp
  | succ cnt ih =>
    rw [replicate_succ, flatten_cons, append_assoc]
    simp [Disciplined, h, erase_concat_self h, ih]

theorem suppAlloc_iff (h : .pageTable ∉ held) (e : SpEntry) :
    Disciplined held (suppAlloc e ++ code) ↔ Disciplined held code := by
  simp [suppAlloc, Code.under, Disciplined, h, erase_concat_self h]

theorem flatMap_suppAlloc_iff (h : .pageTable ∉ held) (es : List SpEntry) :
    Disciplined held (es.flatMap suppAlloc ++ code) ↔ Disciplined held code := by
  induction es with
  | nil => simp
  | cons e es ih => rw [flatMap_cons, append_assoc, suppAlloc_iff h, ih]

theorem frameObtain_iff (hlight : Light held) (e : SpEntry) (fail : OnFail) :
    Disciplined held (frameObtain e fail ++ code) ↔
      fail.Fits (held ++ [.frameTable]) ∧ Disciplined held code := by
  rcases hlight with rfl | rfl
  · simp [frameObtain, Code.under, Disciplined]
  · simp [frameObtain, Code.under, Disciplined]

theorem loaded (q : TaskRef) : Disciplined [.fs] (Code.loaded q) := by
  have hafter : Disciplined [] (Code.sections (.children q) 1 ++ []) :=
    (sections_iff (by simp) 1).mpr rfl
  simpa [Code.loaded, Disciplined] using hafter

theorem loadFailed (q : TaskRef) : Disciplined [.fs] (Code.loadFailed q) := by
  have hafter : Disciplined [] (Code.sections (.children q) 1 ++ [.processExit]) :=
    (sections_iff (by simp) 1).mpr (.inl rfl)
  simpa [Code.loadFailed, Disciplined] using hafter

theorem headers (q : TaskRef) (file : FileRef) (phdrs : List (Option Phdr))
    (h : Disciplined [.fs] code) : Disciplined [.fs] (headers q file code phdrs) := by
  induction phdrs with
  | nil => exact h
  | cons phdr phdrs ih =>
    cases phdr with
    | none => exact loadFailed q
    | some phdr => exact ⟨rfl, ih⟩

theorem pushStackArgs_iff (esp : Addr) (cnts : List Nat) :
    Disciplined [.fs] (pushStackArgs esp cnts ++ code) ↔ Disciplined [.fs] code := by
  induction cnts generalizing esp with
  | nil => simp [pushStackArgs]
  | cons cnt cnts ih => rw [pushStackArgs, append_assoc, touch_iff (.inr rfl), ih]

theorem load (q : TaskRef) (exe : Executable) : Disciplined [.fs] (Code.load q exe) := by
  have hstack : Disciplined [.fs]
      (.setupStack :: pushStackArgs physBase exe.pushes ++ Code.loaded q) :=
    ⟨rfl, (pushStackArgs_iff _ _).mpr (loaded q)⟩
  unfold Code.load
  split
  · exact loadFailed q
  · exact loadFailed q
  · rename_i file _ _
    split
    · exact headers q file exe.phdrs hstack
    · exact loadFailed q

theorem startProcess (q : TaskRef) (exe : Executable) : Disciplined [] (startProcess q exe) :=
  ⟨by simp, load q exe⟩

theorem under_fs_iff {body : List Instr}
    (hbody : ∀ code, Disciplined [.fs] (body ++ code) ↔ Disciplined [.fs] code) :
    Disciplined [] (Code.under .fs body ++ code) ↔ Disciplined [] code := by
  simp [Code.under, Disciplined, hbody]

theorem resized_iff (change : Option (FileRef × Nat)) :
    Disciplined held (resized change ++ code) ↔ Disciplined held code := by
  cases change with
  | none => rfl
  | some c => exact Iff.rfl

theorem processExecute_iff (p : TaskRef) (cmdLine : Addr) (launch : Launch) :
    Disciplined [] (processExecute p cmdLine launch ++ code) ↔ Disciplined [] code := by
  have hspawn : ∀ code, Disciplined [] ((launch.exe.map Instr.spawn).toList ++ code) ↔
      Disciplined [] code := by
    intro code
    cases launch.exe with
    | none => rfl
    | some exe => exact Iff.rfl
  unfold processExecute
  split
  · simp only [append_assoc, touch_iff (.inl rfl), cons_append, Disciplined, hspawn,
      sections_iff (not_mem_nil)]
  · rfl

theorem processWait_iff (p : TaskRef) (polls : Option Nat) :
    Disciplined [] (processWait p polls ++ code) ↔ Disciplined [] code := by
  cases polls with
  | none => rfl
  | some polls =>
    rw [processWait, append_assoc, sections_iff not_mem_nil]
    simp [Code.under, Disciplined]

theorem ifFound_iff (found : Bool) :
    Disciplined [] (Code.ifFound found ++ code) ↔ Disciplined [] code := by
  cases found with
  | false => rfl
  | true => exact sections_iff not_mem_nil 1

theorem of_append_nil (h : Disciplined held (code ++ [])) : Disciplined held code := by
  rw [append_nil] at h
  exact h

theorem under_fs_touch (addr : Addr) (cnt : Nat) (write : Bool) :
    Disciplined [] (Code.under .fs (Code.touch addr cnt write)) :=
  of_append_nil ((under_fs_iff fun _ => touch_iff (.inr rfl) addr cnt write).mpr rfl)

theorem under_fs_resized (addr : Addr) (cnt : Nat) (write : Bool)
    (change : Option (FileRef × Nat)) :
    Disciplined [] (Code.under .fs (Code.touch addr cnt write ++ resized change)) := by
  apply of_append_nil
  rw [under_fs_iff]
  · rfl
  · intro code
    rw [append_assoc, touch_iff (.inr rfl), resized_iff]

theorem syscall (p : TaskRef) (call : Syscall) : Disciplined [] (Code.syscall p call) := by
  have hfound : ∀ found, Disciplined [] (Code.ifFound found) :=
    fun found => of_append_nil ((ifFound_iff found).mpr rfl)
  cases call with
  | halt => exact trivial
  | exit => exact .inl rfl
  | exec cmdLine launch =>
    exact ⟨rfl, of_append_nil ((processExecute_iff p cmdLine launch).mpr rfl)⟩
  | wait polls =>
    exact of_append_nil ((processWait_iff p polls).mpr rfl)
  | create file touched made => exact ⟨rfl, under_fs_resized file touched false made⟩
  | remove file touched => exact ⟨rfl, under_fs_touch file touched false⟩
  | «open» file touched closed =>
    refine ⟨rfl, ?_⟩
    show Disciplined [] (Code.under .fs (Code.touch file touched false) ++ _)
    rw [under_fs_iff fun code => touch_iff (.inr rfl) file touched false]
    split
    · exact of_append_nil ((sections_iff not_mem_nil 1).mpr rfl)
    · rfl
  | filesize found | seek found | tell found | close found => exact hfound found
  | read fd buf size found touched =>
    simp only [Code.syscall]
    split
    · rfl
    · refine ⟨rfl, ?_⟩
      split
      · exact under_fs_touch buf size.toNat true
      · split
        · exact under_fs_touch buf _ true
        · rfl
  | write fd buf size found touched grown =>
    simp only [Code.syscall]
    split
    · rfl
    · refine ⟨rfl, ?_⟩
      split
      · exact under_fs_touch buf size.toNat false
      · split
        · exact under_fs_resized buf _ false grown
        · rfl
  | mmap addr found length =>
    simp only [Code.syscall]
    rw [ifFound_iff]
    split
    · rfl
    · exact ⟨rfl, rfl⟩
  | munmap => rfl
  | readdir name touched =>
    exact of_append_nil ((touch_iff (.inl rfl) name touched true).mpr rfl)
  | directory => rfl
  | unknown => exact .inl rfl

theorem syscallArg_iff (esp : Addr) (index : Nat) :
    Disciplined [] (Code.syscallArg esp index ++ code) ↔ Disciplined [] code := by
  simp only [Code.syscallArg, cons_append, Disciplined, touch_iff (.inl rfl), true_and]

theorem syscallArgs_iff (esp : Addr) (indices : List Nat) :
    Disciplined [] (indices.flatMap (fun i => Code.syscallArg esp (i + 1)) ++ code) ↔
      Disciplined [] code := by
  induction indices with
  | nil => rfl
  | cons i indices ih => rw [flatMap_cons, append_assoc, syscallArg_iff, ih]

theorem syscallHandler (p : TaskRef) (esp : Addr) (call : Syscall) :
    Disciplined [] (Code.syscallHandler p esp call) := by
  have hargs := (syscallArgs_iff esp (List.range (Code.argCnt call))).mpr (syscall p call)
  simp only [Code.syscallHandler, cons_append, append_assoc, Disciplined, true_and,
    touch_iff (.inl rfl)]
  exact hargs

theorem pageFault (addr : Addr) (write : Bool) (esp : Addr) :
    Disciplined [] (pageFault addr write esp) :=
  ⟨rfl, rfl, .inl rfl, rfl, rfl⟩

theorem onFail {fail : OnFail} (q : TaskRef)
    (hheld : held = [.frameTable] ∨ held = [.fs, .frameTable]) (hfits : fail.Fits held) :
    Disciplined held (.release .frameTable :: fail.code q) := by
  cases fail with
  | killUser =>
    cases hfits
    exact ⟨by simp, .inl (by simp)⟩
  | killKernel =>
    refine ⟨?_, trivial⟩
    rcases hheld with rfl | rfl
    · simp
    · simp
  | failLoad =>
    cases hfits
    exact ⟨by simp, by simpa [OnFail.code] using loadFailed q⟩

theorem exitCode (s : TaskTable) (p : TaskRef) (hheld : held = [] ∨ held = [.frameTable]) :
    Disciplined held (s.exitCode p) := by
  have hfs : .fs ∉ held := by rcases hheld with rfl | rfl <;> simp
  have hchildren : ∀ q, .children q ∉ held := by
    intro q
    rcases hheld with rfl | rfl <;> simp
  have hend : Disciplined held
      (.releaseAll :: Code.sections .pageTable (s.suppEntries p).length ++ [.die]) :=
    (sections_iff not_mem_nil _).mpr rfl
  have hrest : Disciplined held (Code.sections (.children (s.tasks p).parent) 1 ++
      (Code.sections (.children p) (s.tasks p).relations ++ (Code.sections .fs 1 ++
      (.releaseAll :: Code.sections .pageTable (s.suppEntries p).length ++ [.die])))) := by
    rw [sections_iff (hchildren _), sections_iff (hchildren _), sections_iff hfs]
    exact hend
  unfold TaskTable.exitCode
  simp only [append_assoc]
  split
  · rw [sections_iff hfs]
    exact hrest
  · exact hrest

end Disciplined

end Pintos.Userprog
