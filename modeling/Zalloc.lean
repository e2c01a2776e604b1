import Zalloc.Buddy.History
import Zalloc.Buddy.Lookup
import Zalloc.Buddy.Access
import Zalloc.Buddy.Missed
import Zalloc.Buddy.Dump
import Zalloc.Library.OutOfMemory
import Zalloc.Library.PageSize
import Zalloc.Library.Objects
import Zalloc.Library.Memalign
import Zalloc.Library.Process
import Zalloc.Library.MmapHandler
import Zalloc.Slab.Geometry
import Zalloc.Slab.Space
import Zalloc.Nvmalloc.Blocks
import Zalloc.Nvmalloc.Reports
import Zalloc.Nvmalloc.Hints
import Zalloc.Nvmalloc.Quarantine
import Zalloc.Nvmalloc.Scans
import Zalloc.Nvmalloc.DoubleFree
import Zalloc.Nvmalloc.AnySize
import Zalloc.Nvmalloc.Objects
import Zalloc.Nvmalloc.Space
import Zalloc.Nvmalloc.Print
