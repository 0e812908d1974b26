import Xv6.Fs.Inode

/-!
# Directories and paths

The directory and name layers of `kernel/fs.c`, and the parts of the system calls of
`kernel/sysfile.c` that work on inodes only. A path is the list of its bytes without the final zero; a
name is what `skipelem` leaves in `name[DIRSIZ]`, up to a zero.
-/

namespace Xv6.Fs

/-- `DIRSIZ`: the length of a name in a directory entry. -/
def DIRSIZ : ℕ := 14

/-- `ROOTINO`: the inode of the root directory. -/
def ROOTINO : ℕ := 1

/-- The size of a directory entry. -/
def DIRENT : ℕ := 16

/-- A name, as it is given to the calls. -/
abbrev Name : Type := List UInt8

/-- The byte `'/'`. -/
def slash : UInt8 := 47

/-! ## Directories -/

/-- `strncmp(s, t, n) == 0` -/
def strneq : ℕ → Name → Name → Bool
  | 0, _, _ => true
  | n + 1, s, t =>
    if s.headD 0 ≠ t.headD 0 then false
    else if s.headD 0 = 0 then true
    else strneq n s.tail t.tail

/-- `namecmp(s, t) == 0` -/
def nameEq (s t : Name) : Bool := strneq DIRSIZ s t

/-- `de.inum` -/
def direntInum (de : List UInt8) : ℕ := (de.getD 0 0).toNat + 256 * (de.getD 1 0).toNat

/-- The bytes of a directory entry: the inode number, and the name padded with zeros. -/
def dirent (inum : ℕ) (name : Name) : ℕ → UInt8 := fun k =>
  if k < 2 then Lib.Bytes.leByte inum k else (name.takeWhile (· ≠ 0)).getD (k - 2) 0

/-- The loop of `dirlookup`, over the entries from offset `off` on: the inode number and the offset of
the entry with the name. -/
def lookupLoop (dp : Ino) (name : Name) : ℕ → ℕ → F (Option (ℕ × ℕ))
  | 0, _ => return none
  | fuel + 1, off => do
    if off ≥ ((← get).inode dp).size then return none
    let de ← readi dp off DIRENT
    if de.length ≠ DIRENT then throw .dirlookupRead
    if direntInum de ≠ 0 ∧ nameEq name (de.drop 2) then return some (direntInum de, off)
    lookupLoop dp name fuel (off + DIRENT)

/-- `dirlookup`: the inode with the name, and the offset of its entry. -/
def dirlookup (dp : Ino) (name : Name) : F (Option (Ino × ℕ)) := do
  let d := (← get).inode dp
  if d.type ≠ T_DIR then throw .dirlookup
  match ← lookupLoop dp name (d.size + 1) 0 with
  | none => return none
  | some (inum, off) => return some (← iget d.dev inum, off)

/-- The loop of `dirlink` that looks for an empty entry. -/
def emptyLoop (dp : Ino) : ℕ → ℕ → F ℕ
  | 0, off => return off
  | fuel + 1, off => do
    if off ≥ ((← get).inode dp).size then return off
    let de ← readi dp off DIRENT
    if de.length ≠ DIRENT then throw .dirlinkRead
    if direntInum de = 0 then return off
    emptyLoop dp fuel (off + DIRENT)

/-- `dirlink` -/
def dirlink (dp : Ino) (name : Name) (inum : ℕ) : F ℤ := do
  match ← dirlookup dp name with
  | some (ip, _) =>
    iput ip
    return -1
  | none =>
    let off ← emptyLoop dp (((← get).inode dp).size + 1) 0
    if (← writei dp (dirent inum name) off DIRENT) ≠ DIRENT then return -1
    return 0

/-! ## Paths -/

/-- `skipelem`: the rest of the path and the next name. -/
def skipelem (path : List UInt8) : Option (List UInt8 × Name) :=
  match path.dropWhile (· = slash) with
  | [] => none
  | p => some ((p.dropWhile (· ≠ slash)).dropWhile (· = slash), (p.takeWhile (· ≠ slash)).take DIRSIZ)

/-- The loop of `namex`. Each turn takes at least one byte of the path. -/
def namexLoop (parent : Bool) : ℕ → List UInt8 → Ino → Name → F (Option (Ino × Name))
  | 0, _, _, _ => return none
  | fuel + 1, path, ip, name => do
    match skipelem path with
    | none =>
      if parent then
        iput ip
        return none
      else return some (ip, name)
    | some (path, name) =>
      ilock ip
      if ((← get).inode ip).type ≠ T_DIR then
        iunlockput ip
        return none
      else if parent ∧ path = [] then
        iunlock ip
        return some (ip, name)
      else
        match ← dirlookup ip name with
        | none =>
          iunlockput ip
          return none
        | some (next, _) =>
          iunlockput ip
          namexLoop parent fuel path next name

/-- `namex`, for a process with current directory `cwd`. -/
def namex (cwd : Ino) (path : List UInt8) (parent : Bool) : F (Option (Ino × Name)) := do
  let ip ← if path.head? = some slash then iget ROOTDEV ROOTINO else idup cwd
  namexLoop parent (path.length + 1) path ip []

/-- `namei` -/
def namei (cwd : Ino) (path : List UInt8) : F (Option Ino) := do
  return (← namex cwd path false).map Prod.fst

/-- `nameiparent` -/
def nameiparent (cwd : Ino) (path : List UInt8) : F (Option (Ino × Name)) := namex cwd path true

/-! ## System calls -/

/-- The names `"."` and `".."`. -/
def dot : Name := [46]
/-- The name of the parent directory. -/
def dotdot : Name := [46, 46]

/-- The `fail` label of `create`. -/
def createFail (dp ip : Ino) : F (Option Ino) := do
  setInode ip fun i => { i with nlink := 0 }
  iupdate ip
  iunlockput ip
  iunlockput dp
  return none

/-- The entries of a new directory: `"."` and `".."`. -/
def linkDots (dp ip : Ino) : F Bool := do
  if (← dirlink ip dot ((← get).inode ip).inum) < 0 then return false
  return !decide ((← dirlink ip dotdot ((← get).inode dp).inum) < 0)

/-- The end of `create`: the new inode gets its name. -/
def createEntry (dp ip : Ino) (name : Name) (type : ℕ) : F (Option Ino) := do
  if (← dirlink dp name ((← get).inode ip).inum) < 0 then createFail dp ip
  else
    if type = T_DIR then
      setInode dp fun i => { i with nlink := (i.nlink + 1) % 2 ^ 16 }
      iupdate dp
    iunlockput dp
    return some ip

/-- The part of `create` where the name is not there yet. -/
def createNew (dp : Ino) (name : Name) (type major minor : ℕ) : F (Option Ino) := do
  match ← ialloc ((← get).inode dp).dev type with
  | none =>
    iunlockput dp
    return none
  | some ip =>
    ilock ip
    setInode ip fun i => { i with major := major, minor := minor, nlink := 1 }
    iupdate ip
    if type = T_DIR then
      if ← linkDots dp ip then createEntry dp ip name type
      else createFail dp ip
    else createEntry dp ip name type

/-- `create`: the inode, locked. -/
def create (cwd : Ino) (path : List UInt8) (type major minor : ℕ) : F (Option Ino) := do
  match ← nameiparent cwd path with
  | none => return none
  | some (dp, name) =>
    ilock dp
    match ← dirlookup dp name with
    | some (ip, _) =>
      iunlockput dp
      ilock ip
      let t := ((← get).inode ip).type
      if type = T_FILE ∧ (t = T_FILE ∨ t = T_DEVICE) then return some ip
      iunlockput ip
      return none
    | none => createNew dp name type major minor

/-- The `bad` label of `sys_link`. -/
def linkBad (ip : Ino) : F ℤ := do
  ilock ip
  setInode ip fun i => { i with nlink := (i.nlink + (2 ^ 16 - 1)) % 2 ^ 16 }
  iupdate ip
  iunlockput ip
  return -1

/-- `sys_link`, once the paths are in the kernel. -/
def link (cwd : Ino) (old new : List UInt8) : F ℤ := do
  match ← namei cwd old with
  | none => return -1
  | some ip =>
    ilock ip
    if ((← get).inode ip).type = T_DIR then
      iunlockput ip
      return -1
    else
      setInode ip fun i => { i with nlink := (i.nlink + 1) % 2 ^ 16 }
      iupdate ip
      iunlock ip
      match ← nameiparent cwd new with
      | none => linkBad ip
      | some (dp, name) =>
        ilock dp
        let s ← get
        if (s.inode dp).dev ≠ (s.inode ip).dev then
          iunlockput dp
          linkBad ip
        else if (← dirlink dp name (s.inode ip).inum) < 0 then
          iunlockput dp
          linkBad ip
        else
          iunlockput dp
          iput ip
          return 0

/-- The loop of `isdirempty`. -/
def isdiremptyLoop (dp : Ino) : ℕ → ℕ → F Bool
  | 0, _ => return true
  | fuel + 1, off => do
    if off ≥ ((← get).inode dp).size then return true
    let de ← readi dp off DIRENT
    if de.length ≠ DIRENT then throw .isdirempty
    if direntInum de ≠ 0 then return false
    isdiremptyLoop dp fuel (off + DIRENT)

/-- `isdirempty` -/
def isdirempty (dp : Ino) : F Bool := do
  isdiremptyLoop dp (((← get).inode dp).size + 1) (2 * DIRENT)

/-- The `bad` label of `sys_unlink`. -/
def unlinkBad (dp : Ino) : F ℤ := do
  iunlockput dp
  return -1

/-- The part of `sys_unlink` that removes the entry at offset `off` for `ip`. -/
def unlinkEntry (dp ip : Ino) (off : ℕ) : F ℤ := do
  if (← writei dp (fun _ => 0) off DIRENT) ≠ DIRENT then throw .unlinkWritei
  if ((← get).inode ip).type = T_DIR then
    setInode dp fun i => { i with nlink := (i.nlink + (2 ^ 16 - 1)) % 2 ^ 16 }
    iupdate dp
  iunlockput dp
  setInode ip fun i => { i with nlink := (i.nlink + (2 ^ 16 - 1)) % 2 ^ 16 }
  iupdate ip
  iunlockput ip
  return 0

/-- `sys_unlink`, once the path is in the kernel. -/
def unlink (cwd : Ino) (path : List UInt8) : F ℤ := do
  match ← nameiparent cwd path with
  | none => return -1
  | some (dp, name) =>
    ilock dp
    if nameEq name dot ∨ nameEq name dotdot then unlinkBad dp
    else
      match ← dirlookup dp name with
      | none => unlinkBad dp
      | some (ip, off) =>
        ilock ip
        let i := (← get).inode ip
        -- `nlink` is a signed number
        if i.nlink = 0 ∨ 2 ^ 15 ≤ i.nlink then throw .unlinkNlink
        else if i.type = T_DIR then
          if ← isdirempty ip then unlinkEntry dp ip off
          else
            iunlockput ip
            unlinkBad dp
        else unlinkEntry dp ip off

/-- `sys_mkdir` and `sys_mknod`, once the path is in the kernel. -/
def mknode (cwd : Ino) (path : List UInt8) (type major minor : ℕ) : F ℤ := do
  match ← create cwd path type major minor with
  | none => return -1
  | some ip =>
    iunlockput ip
    return 0

/-- `sys_chdir`, once the path is in the kernel: the new current directory. -/
def chdir (cwd : Ino) (path : List UInt8) : F (Option Ino) := do
  match ← namei cwd path with
  | none => return none
  | some ip =>
    ilock ip
    if ((← get).inode ip).type ≠ T_DIR then
      iunlockput ip
      return none
    else
      iunlock ip
      iput cwd
      return some ip

/-- The reads of `exec` from the file: whether all of them are complete. -/
def execReads (ip : Ino) : List (ℕ × ℕ) → F Bool
  | [] => return true
  | (off, n) :: reads => do
    if (← readi ip off n).length ≠ n then return false
    execReads ip reads

/-- What `exec` does with the file. It reads the ELF header, the program headers and the segments, at
the places `reads`; then it may find that something is wrong (`bad`), as it may later, after it has put
the inode (`late`). -/
def exec (cwd : Ino) (path : List UInt8) (reads : List (ℕ × ℕ)) (bad late : Bool) : F ℤ := do
  match ← namei cwd path with
  | none => return -1
  | some ip =>
    ilock ip
    let ok ← execReads ip reads
    if !ok ∨ bad then
      iunlockput ip
      return -1
    else
      iunlockput ip
      return if late then -1 else 0

end Xv6.Fs
