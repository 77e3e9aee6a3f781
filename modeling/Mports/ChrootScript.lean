import Mathlib.Data.Int.Notation
import Mports.PerlText
import Mports.StatementPrograms

set_option autoImplicit false

/-!
Chroot.pm: a worker's chroot as a program over what it asks the system for. Nothing is
said here about what the system answers.
-/
namespace Mports.ChrootScript
open PerlText StatementPrograms

/-- The fields of the object; an undefined one is empty. -/
structure Config where
  prefixDir : String
  branch : String
  workerid : String := "1"
  localbase : String := "/usr/local"
  x11base : String := "/usr/X11R6"
  linuxcompat : String := "/compat/linux"
  packages : String := "/magus/packages"
  distfiles : String := "/magus/distfiles"
  workdir : String := "/magus/work"
  logs : String := "/magus/logs"
  memoryDisk : Bool := false
  memoryDiskSize : String := ""
  zfs : Bool := false
  zfsDatasetRoot : String := ""
  refreshSnapshot : Bool := false
  loopbacks : List (String × String)
  tarball : String
  deriving DecidableEq, Repr

/-- A `Magus::Chroot`. `do_chroot` empties the root of its copy. -/
structure Chroot extends Config where
  root : String
  deriving DecidableEq, Repr

def Config.refdir (config : Config) : String :=
  config.prefixDir ++ "/" ++ config.branch ++ "/reference"

def Config.chroot (config : Config) : Chroot :=
  { config with root := config.prefixDir ++ "/" ++ config.branch ++ "/" ++ config.workerid }

section Names

inductive Dataset where
  | parent | branch | worker | snapshot
  deriving DecidableEq, Repr

def Dataset.text (config : Config) : Dataset → String
  | parent => config.zfsDatasetRoot
  | branch => config.zfsDatasetRoot ++ "/" ++ config.branch
  | worker => config.zfsDatasetRoot ++ "/" ++ config.branch ++ "/" ++ config.workerid
  | snapshot => config.zfsDatasetRoot ++ "/" ++ config.branch ++ "/" ++ config.workerid ++ "@magus-clean"

inductive Marker where
  | clean | dirty | dead | checksum
  deriving DecidableEq, Repr

def Marker.text : Marker → String
  | clean => "/.clean"
  | dirty => "/.dirty"
  | dead => "/.dead"
  | checksum => "/.checksum"

inductive Place where
  | root | refdir
  deriving DecidableEq, Repr

def Place.text (self : Chroot) : Place → String
  | root => self.root
  | refdir => self.refdir

inductive Path where
  | top (place : Place)
  | marker (place : Place) (m : Marker)
  | below (place : Place) (rel : String)
  | branchDir
  deriving DecidableEq, Repr

def Path.text (self : Chroot) : Path → String
  | top place => place.text self
  | marker place m => place.text self ++ m.text
  | below place rel => place.text self ++ rel
  | branchDir => self.prefixDir ++ "/" ++ self.branch

def ownershipProperty : String := "org.midnightbsd:magus-chroot"

inductive Command where
  | zfsList (dataset : Dataset)
  | zfsListAll
  | zfsOwnership (dataset : Dataset)
  | zfsGet (property : String) (dataset : Dataset)
  | mountTable
  | zfsCreate (options : List String) (dataset : Dataset)
  | zfsMount
  | zfsDestroy (dataset : Dataset)
  | zfsRollback (dataset : Dataset)
  | zfsSnapshot (dataset : Dataset)
  | mdconfigAttach
  | mdconfigDetach
  | newfs
  | mountDisk
  | umountDisk
  | tar
  | cpdup
  | chflags (path : Path)
  | mtree (file dir : String)
  | mountNullfs (src dst : String)
  | mountFs (type source dir : String)
  | umount (dst : String)
  deriving DecidableEq, Repr

/-- The words of the command; `mtree` goes through the shell. -/
def Command.argv (self : Chroot) : Command → List String
  | zfsList dataset => ["/sbin/zfs", "list", "-H", "-o", "name", dataset.text self.toConfig]
  | zfsListAll => ["/sbin/zfs", "list", "-H", "-r", "-o", "name", "-t", "filesystem,snapshot",
      Dataset.worker.text self.toConfig]
  | zfsOwnership dataset =>
    ["/sbin/zfs", "get", "-H", "-o", "value,source", ownershipProperty, dataset.text self.toConfig]
  | zfsGet property dataset => ["/sbin/zfs", "get", "-H", "-o", "value", property, dataset.text self.toConfig]
  | mountTable => ["/sbin/mount", "-p"]
  | zfsCreate options dataset =>
    ["/sbin/zfs", "create"] ++ options.flatMap (fun o => ["-o", o]) ++ [dataset.text self.toConfig]
  | zfsMount => ["/sbin/zfs", "mount", Dataset.worker.text self.toConfig]
  | zfsDestroy dataset => ["/sbin/zfs", "destroy", dataset.text self.toConfig]
  | zfsRollback dataset => ["/sbin/zfs", "rollback", dataset.text self.toConfig]
  | zfsSnapshot dataset => ["/sbin/zfs", "snapshot", dataset.text self.toConfig]
  | mdconfigAttach =>
    ["/sbin/mdconfig", "-a", "-t", "swap", "-s", self.memoryDiskSize, "-u", self.workerid]
  | mdconfigDetach => ["/sbin/mdconfig", "-d", "-u", self.workerid]
  | newfs => ["/sbin/newfs", "/dev/md" ++ self.workerid]
  | mountDisk => ["/sbin/mount", "/dev/md" ++ self.workerid, self.root]
  | umountDisk => ["/sbin/umount", self.root]
  | tar => ["/usr/bin/tar", "xf", self.tarball, "-C", self.refdir]
  | cpdup => ["/bin/cpdup", "-i0", "-s0", self.refdir, self.root]
  | chflags path => ["/bin/chflags", "-R", "0", path.text self]
  | mtree file dir => ["/bin/sh", "-c", "/usr/sbin/mtree -deU -f " ++ self.refdir ++ "/etc/mtree/" ++ file ++
      " -p " ++ self.refdir ++ dir ++ " >/dev/null 2>&1"]
  | mountNullfs src dst => ["/sbin/mount", "-t", "nullfs", "-o", "ro", src, self.root ++ "/" ++ dst]
  | mountFs type source dir => ["/sbin/mount", "-t", type, source, self.root ++ "/" ++ dir]
  | umount dst => ["/sbin/umount", self.root ++ dst]

end Names

inductive Op where
  /-- `_capture_command`. -/
  | capture (c : Command)
  /-- `system`, whose answer is `$?`. -/
  | run (c : Command)
  | fileExists (path : Path)
  | isDir (path : Path)
  /-- The first line of a file that can be opened. -/
  | firstLine (path : Path)
  | entries (path : Path)
  | unlink (path : Path)
  | touchfile (path : Path)
  | writeLine (path : Path) (line : String)
  | mkpath (path : Path)
  | rmtree (path : Path)
  | symlink (old : String) (new : Path)
  | tarballChecksum
  /-- `$!`. -/
  | errno
  deriving DecidableEq, Repr

def chroot : Signature where
  Op := Op
  Res
    | .capture _ => ℕ × String
    | .run _ => ℤ
    | .fileExists _ | .isDir _ => Bool
    | .firstLine _ => Option String
    | .entries _ => List String
    | .rmtree _ => ℕ
    | .tarballChecksum | .errno => String
    | _ => Unit
  Exn := String
  Code := Empty

instance : DecidableEq chroot.Op := inferInstanceAs (DecidableEq Op)

abbrev Perl (α : Type) := Prog chroot α

abbrev ask (o : Op) : Perl (chroot.Res o) := Prog.issue (S := chroot) o

def die {α : Type} (message : String) : Perl α := .raise message

def system (c : Command) : Perl ℤ := ask (.run c)
def captureCommand (c : Command) : Perl (ℕ × String) := ask (.capture c)
def fileExists (path : Path) : Perl Bool := ask (.fileExists path)
def isDir (path : Path) : Perl Bool := ask (.isDir path)
def firstLine (path : Path) : Perl (Option String) := ask (.firstLine path)
def entries (path : Path) : Perl (List String) := ask (.entries path)
def rmtree (path : Path) : Perl ℕ := ask (.rmtree path)
def tarballChecksum : Perl String := ask .tarballChecksum
def errno : Perl String := ask .errno

section Texts

def chomp (text : String) : String :=
  if text.toList.getLast? = some '\n' then String.ofList text.toList.dropLast else text

/-- The second field of `split(/\s+/, $line, 3)`. -/
def secondField (line : List Char) : Option (List Char) :=
  match line.dropWhile fun c => !isSpace c with
  | [] => none
  | rest => some ((rest.dropWhile isSpace).takeWhile fun c => !isSpace c)

def isNameChar (c : Char) : Bool :=
  c.isAlphanum || c = '_' || c = '.' || c = ':' || c = '-'

/-- `[A-Za-z0-9][A-Za-z0-9_.:-]*`. -/
def isComponent : List Char → Bool
  | [] => false
  | c :: cs => c.isAlphanum && cs.all isNameChar

def truthy (text : String) : Bool := text ≠ "" && text ≠ "0"

def isDatasetName (text : String) : Bool := (text.toList.splitOn '/').all isComponent

/-- `[1-9][0-9]*`. -/
def isWorkerId (text : String) : Bool :=
  match text.toList with
  | [] => false
  | c :: cs => c.isDigit && c ≠ '0' && cs.all Char.isDigit

def isPrefixPath (text : String) : Bool :=
  match text.toList with
  | '/' :: cs => (cs.splitOn '/').all fun part => part ≠ [] && part.all isNameChar
  | _ => false

def hasDotComponent (text : String) : Bool :=
  (split '/' text.toList).any fun part => part = ['.'] || part = ['.', '.']

end Texts

section Commands
variable (self : Chroot)

def Command.program (c : Command) : String := (c.argv self).headD ""

def runOr (c : Command) (message : String) : Perl Unit := do
  let status ← system c
  Prog.when (status ≠ 0) (die (message ++ toString status ++ "\n"))

def mustRun (c : Command) : Perl Unit := runOr c (c.program self ++ " returned non-zero: ")

def zfsDatasetExists (dataset : Dataset) : Perl Bool := do
  let (exit, output) ← captureCommand (.zfsList dataset)
  return exit = 0 && chomp output = dataset.text self.toConfig

def zfsGet (property : String) (dataset : Dataset) : Perl String := do
  let (exit, output) ← captureCommand (.zfsGet property dataset)
  if exit ≠ 0 then
    die ("Couldn't read ZFS property " ++ property ++ " from " ++ dataset.text self.toConfig ++ ".\n")
  else return chomp output

/-- Value `1` and source `local`. -/
def owned (output : String) : Bool :=
  splitOnce '\t' (chomp output).toList = some (['1'], "local".toList)

def assertZfsOwned (dataset : Dataset) : Perl Unit := do
  let (exit, output) ← captureCommand (.zfsOwnership dataset)
  Prog.when (exit ≠ 0) <|
    die ("Couldn't verify Magus ownership of ZFS dataset " ++ dataset.text self.toConfig ++ ".\n")
  Prog.when (owned output = false) <|
    die ("Refusing to manage unowned ZFS dataset " ++ dataset.text self.toConfig ++ ".\n")

def unexpectedName (output : String) : Option (List Char) :=
  ((split '\n' output.toList).filter (· ≠ [])).find? fun name =>
    name ≠ (Dataset.worker.text self.toConfig).toList && name ≠ (Dataset.snapshot.text self.toConfig).toList

def assertZfsWorkerContents : Perl Unit := do
  let (exit, output) ← captureCommand .zfsListAll
  Prog.when (exit ≠ 0) <|
    die ("Couldn't inspect ZFS dataset " ++ Dataset.worker.text self.toConfig ++ ".\n")
  match unexpectedName self output with
  | some name => die ("Refusing to destroy unexpected ZFS child or snapshot " ++ String.ofList name ++ ".\n")
  | none => return

def assertZfsWorkerDataset : Perl Unit := do
  assertZfsOwned self .worker
  let mountpoint ← zfsGet self "mountpoint" .worker
  Prog.when (mountpoint ≠ self.root) <|
    die ("ZFS dataset " ++ Dataset.worker.text self.toConfig ++ " has unexpected mountpoint " ++
      mountpoint ++ ".\n")
  let mounted ← zfsGet self "mounted" .worker
  Prog.when (mounted ≠ "yes") (mustRun self .zfsMount)

def createZfsSnapshot : Perl Unit := do
  let taken ← zfsDatasetExists self .snapshot
  Prog.when (taken = true) <|
    die ("Refusing to replace unexpected existing snapshot " ++ Dataset.snapshot.text self.toConfig ++ ".\n")
  mustRun self (.zfsSnapshot .snapshot)

def remaining (output : String) : Option (List Char) :=
  ((split '\n' output.toList).filterMap secondField).find? fun mountpoint =>
    (self.root ++ "/").toList.isPrefixOf mountpoint

end Commands

section Mounts
variable (self : Chroot)

def mkdir (place : Place) (dir : String) : Perl Unit := ask (.mkpath (.below place ("/" ++ dir)))

def auxiliary : List (String × String × String) :=
  [("devfs", "devfs", "dev"), ("procfs", "procfs", "proc"), ("linprocfs", "linprocfs", "compat/linux/proc"),
    ("linsysfs", "linsysfs", "compat/linux/sys"), ("devfs", "devfs", "compat/linux/dev"),
    ("fdescfs", "fdescfs", "compat/linux/dev/fd")]

def mountLoopbacks : Perl Unit := do
  Prog.forEach self.loopbacks fun (src, dst) => do
    mkdir .root dst
    runOr (.mountNullfs src dst) "mount returned non-zero: "
  Prog.forEach auxiliary fun (type, source, dir) => do
    mkdir .root dir
    let _ ← system (.mountFs type source dir)

def unmounted : List String :=
  ["/dev", "/proc", "/compat/linux/proc", "/compat/linux/sys", "/compat/linux/dev/fd", "/compat/linux/dev"] ++
    self.loopbacks.map Prod.snd

def unmountLoopbacks (strict : Bool) : Perl Unit := do
  Prog.forEach (unmounted self) fun dst => do
    let _ ← system (.umount dst)
  Prog.when (strict = true) do
    let (exit, output) ← captureCommand .mountTable
    Prog.when (exit ≠ 0) (die ("Couldn't verify mounts below " ++ self.root ++ ".\n"))
    match remaining self output with
    | some mountpoint =>
      die ("Refusing ZFS operation while " ++ String.ofList mountpoint ++ " remains mounted.\n")
    | none => return

def syncReferenceDir : Perl Unit := runOr .cpdup "cpdup returned non-zero: "

def clearFlagsPath (path : Path) : Perl Unit := do
  let found ← fileExists path
  Prog.when (found = true) (runOr (.chflags path) "/bin/chflags returned non-zero: ")

end Mounts

section Reference
variable (self : Chroot)

def mtree (file dir : String) : Perl Unit := do
  let status ← system (.mtree file dir)
  Prog.when (status ≠ 0) <|
    die ("\"" ++ ((Command.mtree file dir).argv self).getLastD "" ++ "\" returned non-zero: " ++
      toString status ++ "\n")

def buildReference (tarballsum : String) : Perl Unit := do
  ask (.mkpath (.top .refdir))
  runOr .tar "Couldn't untar root tarball: "
  ask (.symlink "usr/src/sys" (.below .refdir "/sys"))
  mtree self "BSD.root.dist" "/"
  mtree self "BSD.var.dist" "/var"
  mtree self "BSD.usr.dist" "/usr"
  let tmp ← isDir (.below .refdir "/tmp")
  Prog.when (tmp = false) (mkdir .refdir "/tmp")
  Prog.forEach [self.workdir, self.x11base, self.packages, self.distfiles, self.logs, self.linuxcompat]
    (mkdir .refdir)
  mkdir .refdir (self.packages ++ "/All")
  mtree self "BSD.local.dist" self.localbase
  Prog.when (truthy self.x11base = true) (mtree self "BSD.x11-4.dist" self.x11base)
  ask (.touchfile (.marker .refdir .clean))
  ask (.writeLine (.marker .refdir .checksum) tarballsum)

def createReferenceDir : Perl String := do
  let tarballsum ← tarballChecksum
  let refdirsum ← firstLine (.marker .refdir .checksum)
  if refdirsum.map chomp = some tarballsum then return tarballsum
  else
    let found ← fileExists (.top .refdir)
    Prog.when (found = true) do
      clearFlagsPath (.top .refdir)
      let _ ← rmtree (.top .refdir)
      let left ← fileExists (.top .refdir)
      Prog.when (left = true) do
        let errno ← errno
        die ("Couldn't delete " ++ self.refdir ++ ": " ++ errno ++ "\n")
    buildReference self tarballsum
    return tarballsum

def rootMatchesReference (referenceChecksum : String) : Perl Bool := do
  let checksum ← firstLine (.marker .root .checksum)
  return checksum.map chomp = some referenceChecksum

/-- `-e "$self->{root}/.clean" && $self->_root_matches_reference`. -/
def cleanAndMatches (referenceChecksum : String) : Perl Bool := do
  let clean ← fileExists (.marker .root .clean)
  if clean then rootMatchesReference referenceChecksum else return false

/-- `-d $self->{root} && !-e "$self->{root}/usr/mports/Makefile"`. -/
def loopbackBroken : Perl Bool := do
  let dir ← isDir (.top .root)
  if dir then
    let makefile ← fileExists (.below .root "/usr/mports/Makefile")
    return !makefile
  else return false

end Reference

section Zfs
variable (self : Chroot)

def validateZfsConfig (config : Config) : Except String Unit :=
  if !config.zfs then .ok ()
  else if config.memoryDisk then
    .error "ZFS chroots and memory disk chroots cannot both be enabled.\n"
  else if config.zfsDatasetRoot = "" then
    .error "ZfsChrootDataset must be set when ZfsChrootEnabled is enabled.\n"
  else if !isDatasetName config.zfsDatasetRoot then
    .error ("Invalid ZFS dataset name: " ++ config.zfsDatasetRoot ++ "\n")
  else if !isComponent config.branch.toList then
    .error ("Invalid OS release component for ZFS dataset: " ++ config.branch ++ "\n")
  else if !isWorkerId config.workerid then
    .error ("Invalid worker ID for ZFS dataset: " ++ config.workerid ++ "\n")
  else if !isPrefixPath config.prefixDir then
    .error ("Invalid chroot prefix for ZFS mountpoints: " ++ config.prefixDir ++ "\n")
  else if hasDotComponent config.prefixDir then
    .error "ZFS chroot prefix cannot contain dot path components.\n"
  else .ok ()

def assertZfsBranchDataset : Perl Unit := do
  assertZfsOwned self .branch
  let mountpoint ← zfsGet self "mountpoint" .branch
  let canmount ← zfsGet self "canmount" .branch
  Prog.when (¬ (mountpoint = "none" ∧ canmount = "off")) <|
    die ("ZFS branch dataset " ++ Dataset.branch.text self.toConfig ++
      " must have mountpoint=none and canmount=off.\n")

def ensureZfsHierarchy : Perl Unit := do
  let parent ← zfsDatasetExists self .parent
  Prog.when (parent = false) <|
    die ("Configured ZFS parent dataset " ++ self.zfsDatasetRoot ++ " does not exist.\n")
  let branch ← zfsDatasetExists self .branch
  if branch then assertZfsBranchDataset self
  else mustRun self (.zfsCreate ["canmount=off", "mountpoint=none", ownershipProperty ++ "=1"] .branch)
  ask (.mkpath .branchDir)

def ensureZfsWorkerDataset : Perl Bool := do
  let found ← zfsDatasetExists self .worker
  if found then return false
  else
    let dir ← isDir (.top .root)
    Prog.when (dir = true) do
      let entries ← entries (.top .root)
      Prog.when (entries ≠ []) <|
        die ("Refusing to mount a ZFS chroot over non-empty " ++ self.root ++ ".\n")
    mustRun self (.zfsCreate ["canmount=on", "mountpoint=" ++ self.root, ownershipProperty ++ "=1"] .worker)
    assertZfsWorkerDataset self
    return true

/-- The branch that `_refresh_zfs_baseline` and `delete` have in common. -/
def destroyWorker : Perl Unit := do
  assertZfsWorkerDataset self
  unmountLoopbacks self true
  assertZfsWorkerContents self
  let taken ← zfsDatasetExists self .snapshot
  Prog.when (taken = true) (mustRun self (.zfsDestroy .snapshot))
  mustRun self (.zfsDestroy .worker)

def refreshZfsBaseline : Perl Unit := do
  let found ← zfsDatasetExists self .worker
  Prog.when (found = true) (destroyWorker self)
  let _ ← ensureZfsWorkerDataset self
  syncReferenceDir
  createZfsSnapshot self
  mountLoopbacks self

def cleanZfs : Perl Unit := do
  unmountLoopbacks self true
  assertZfsWorkerContents self
  mustRun self (.zfsRollback .snapshot)
  mountLoopbacks self

/-- `_init_zfs` where neither marker asks for more. -/
def keepZfs (referenceChecksum : String) : Perl Unit := do
  let matching ← cleanAndMatches referenceChecksum
  Prog.when (matching = false) <|
    die ("ZFS chroot " ++ self.root ++ " does not match the current bootstrap.\n")
  let makefile ← fileExists (.below .root "/usr/mports/Makefile")
  Prog.when (makefile = false) do
    unmountLoopbacks self true
    mountLoopbacks self

/-- `_init_zfs` with a dataset that was there before. -/
def reuseZfs (referenceChecksum : String) : Perl Unit := do
  assertZfsWorkerDataset self
  let taken ← zfsDatasetExists self .snapshot
  Prog.when (taken = false) <|
    die ("Missing ZFS baseline snapshot " ++ Dataset.snapshot.text self.toConfig ++ "\n")
  let dirty ← fileExists (.marker .root .dirty)
  if dirty then cleanZfs self
  else
    let dead ← fileExists (.marker .root .dead)
    if dead then refreshZfsBaseline self else keepZfs self referenceChecksum

def initZfs (referenceChecksum : String) : Perl Unit := do
  ensureZfsHierarchy self
  if self.refreshSnapshot then refreshZfsBaseline self
  else
    let created ← ensureZfsWorkerDataset self
    if created then
      syncReferenceDir
      createZfsSnapshot self
      mountLoopbacks self
    else reuseZfs self referenceChecksum

end Zfs

section Methods
variable (self : Chroot)

def delete : Perl Unit := do
  if self.zfs then
    let found ← zfsDatasetExists self .worker
    Prog.when (found = true) (destroyWorker self)
  else
    unmountLoopbacks self false
    if self.memoryDisk then
      runOr .umountDisk "Couldn't unmount memory disk: "
      runOr .mdconfigDetach "Couldn't destroy memory disk: "
    else
      clearFlagsPath (.below .root "/")
      let deleted ← rmtree (.top .root)
      Prog.when (deleted = 0) do
        let errno ← errno
        die ("Couldn't rmtree " ++ self.root ++ ": " ++ errno ++ "\n")

def clean : Perl Unit := do
  if self.zfs then cleanZfs self
  else
    unmountLoopbacks self true
    clearFlagsPath (.below .root "/")
    syncReferenceDir
    mountLoopbacks self

/-- `_init_cpdup` where the root is to be filled. -/
def fillRoot : Perl Unit := do
  ask (.mkpath (.top .root))
  Prog.when (self.memoryDisk = true) do
    runOr .mdconfigAttach "Couldn't create memory disk: "
    runOr .newfs "Couldn't newfs memory disk: "
    runOr .mountDisk "Couldn't mount memory disk: "
  syncReferenceDir
  mountLoopbacks self

/-- `_init_cpdup` where the root is not current. -/
def renewRoot : Perl Unit := do
  let clean ← fileExists (.marker .root .clean)
  Prog.when (clean = true) do
    ask (.unlink (.marker .root .clean))
    ask (.touchfile (.marker .root .dirty))
  let dirty ← fileExists (.marker .root .dirty)
  if dirty then ChrootScript.clean self
  else
    let dead ← fileExists (.marker .root .dead)
    Prog.when (dead = true) (delete self)
    fillRoot self

/-- `_init_cpdup` from its second check on. -/
def reuseRoot (referenceChecksum : String) : Perl Unit := do
  let matching ← cleanAndMatches referenceChecksum
  Prog.when (matching = false) (renewRoot self)

def initCpdup (referenceChecksum : String) : Perl Unit := do
  let broken ← loopbackBroken
  Prog.when (broken = true) (delete self)
  reuseRoot self referenceChecksum

def init : Perl Unit := do
  let referenceChecksum ← createReferenceDir self
  if self.zfs then initZfs self referenceChecksum else initCpdup self referenceChecksum

def new (config : Config) : Perl Chroot := do
  Prog.when (truthy config.tarball = false) (die "Magus::Chroot->new(): No tarball given.\n")
  match validateZfsConfig config with
  | .error message => die message
  | .ok () =>
    init config.chroot
    return config.chroot

def markDirty : Perl Unit := do
  ask (.unlink (.marker .root .clean))
  ask (.unlink (.marker .root .dead))
  ask (.touchfile (.marker .root .dirty))

def markDead : Perl Unit := do
  ask (.unlink (.marker .root .clean))
  ask (.unlink (.marker .root .dirty))
  ask (.touchfile (.marker .root .dead))

end Methods
end Mports.ChrootScript
