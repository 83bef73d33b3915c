import ElcoOs.Kmalloc.Bounded
import ElcoOs.Kmalloc.DllistRuns
import ElcoOs.Kmalloc.Large
import ElcoOs.Kmalloc.LastBin
import ElcoOs.Kmalloc.LastResort
import ElcoOs.Kmalloc.Realloc
import ElcoOs.Kmalloc.Lockstep
import ElcoOs.Kmalloc.DoubleFree
import ElcoOs.Kmalloc.Reject
import ElcoOs.Kmalloc.Requests
import ElcoOs.Kmalloc.Calloc
import ElcoOs.Kmalloc.Shrink
import ElcoOs.Kmalloc.TreeShape
import ElcoOs.Kstring.Copy
import ElcoOs.Kstring.Compare
import ElcoOs.Kstring.Concat
import ElcoOs.Kstring.Find
import ElcoOs.Kstring.Strtok
import ElcoOs.Kstdio.Kprintf
import ElcoOs.Display.Display
import ElcoOs.Interrupts.Pic
import ElcoOs.Tasks.Safety
import ElcoOs.Tasks.Schedule
import ElcoOs.Tasks.Delivery
import ElcoOs.Tasks.Sleep
import ElcoOs.Tasks.Fifo
import ElcoOs.Tasks.Timers
import ElcoOs.Mmap.Map
import ElcoOs.Paging.Conserved
import ElcoOs.Paging.Physical
import ElcoOs.Paging.Mirror
import ElcoOs.Paging.PhysicalRuns
import ElcoOs.Paging.Access
import ElcoOs.Paging.Boot
import ElcoOs.Paging.Heap
import ElcoOs.I386.Contexts
import ElcoOs.I386.Processors
import ElcoOs.I386.Boot
